import CitadelAgent.PageClient.MessageLoop

/-!
# A loop that does not die silently

* `Client.Lives` : one loop runs, every message is handled once, and a loop that ended was stopped or gave up;
* `Client.Meets` : a loop starts where none runs, and goes on with the WASM client initialised;
* `Client.loop_lives` : so it is in every state of such runs;
* `Client.recovery_fails_silently` : a recovery that fails ends the loop; a stop does not keep a second loop from starting.
-/

namespace CitadelAgent.PageClient.MessageLoop
open Function Machine

namespace Client

/-- Loop `l` gave up after as many failed recoveries as there may be, and said so once. -/
def GaveUp (s : Client) (l : Nat) : Prop := maxRecoveryAttempts ≤ s.failed l ∧ s.died.count (l, false) = 1

structure Lives (s : Client) : Prop where
  one : ∀ l l', (s.loops l).isSome = true → (s.loops l').isSome = true → l = l'
  handled : ∀ n < s.returned, s.handled.count n = 1
  ends : ∀ l < s.started, s.loops l = none → s.stopped l = true ∨ s.GaveUp l

/-! ## The condition -/

/-- What starts a loop finds none running, and what the new one needs: the WASM client initialised, no stop left from before, and
no recovery attempts counted. -/
def Starts (s : Client) : Prop :=
  s.messageProcessingStarted = false → (∀ l < s.started, s.loops l = none) ∧ s.wasmModule = true ∧ s.wasmInitialized = true ∧
    s.shouldStopProcessing = false ∧ s.recoveryAttempts = 0

/-- A loop that goes on to its next turn finds the WASM client initialised, or is being stopped. -/
def Continues (s : Client) (l : Nat) : Prop := s.stopped l = true ∨ (s.wasmModule = true ∧ s.wasmInitialized = true)

end Client

/-- The call goes on to `startMessageProcessing`. -/
def Call.opens : Call → Bool
  | .connect (some true) => true
  | .restart (some true) => true
  | _ => false

def Point.opens : Point → Bool
  | .restart _ (some true) => true
  | _ => false

def Point.turns : Point → Bool
  | .recovered _ true => true
  | _ => false

/-- A recovery is in progress whose attempt is counted, and has not failed yet. -/
def Point.attempts : Point → Nat
  | .delay _ => 1
  | .restart _ _ => 1
  | .restarted _ _ => 1
  | _ => 0

def Point.leaves : Point → Bool
  | .recovered _ false => true
  | _ => false

namespace Client

instance (s : Client) : Decidable s.Starts := inferInstanceAs (Decidable (_ → _))

instance (s : Client) (l : Nat) : Decidable (s.Continues l) := inferInstanceAs (Decidable (_ ∨ _))

def Meets (s : Client) : Act → Prop
  | .resume i => ∀ call ∈ s.calls i, call.opens = true → s.Starts
  | .receive l next => next = .message → s.loops l = some .nextMessage → s.Continues l
  | .timer l => s.loops l = some .pause → s.Continues l
  | .proceed l => ∀ point ∈ s.loops l, (point.opens = true → s.Starts) ∧ (point.turns = true → s.Continues l)
  | _ => True

instance (s : Client) : ∀ act, Decidable (s.Meets act)
  | .resume i => inferInstanceAs (Decidable (∀ call ∈ s.calls i, call.opens = true → s.Starts))
  | .receive l next => inferInstanceAs (Decidable (next = .message → s.loops l = some .nextMessage → s.Continues l))
  | .timer l => inferInstanceAs (Decidable (s.loops l = some .pause → s.Continues l))
  | .proceed l => inferInstanceAs
      (Decidable (∀ point ∈ s.loops l, (point.opens = true → s.Starts) ∧ (point.turns = true → s.Continues l)))
  | .init => isTrue trivial
  | .restart => isTrue trivial
  | .stop => isTrue trivial
  | .close => isTrue trivial
  | .settle _ _ => isTrue trivial
  | .settleRestart _ _ => isTrue trivial

/-! ## The invariant -/

/-- A stop is a stop of every loop that runs; the attempts counted are the running loop's, which has said nothing of its end
unless it is to be left. -/
structure Inv (s : Client) : Prop where
  lives : s.Lives
  fresh : ∀ l, s.started ≤ l → s.loops l = none ∧ (l, false) ∉ s.died
  stops : s.shouldStopProcessing = true → ∀ l, (s.loops l).isSome = true → s.stopped l = true
  attempts : ∀ l point, s.loops l = some point → s.stopped l = false → s.recoveryAttempts ≤ s.failed l + point.attempts
  quiet : ∀ l point, s.loops l = some point → point.leaves = false → (l, false) ∉ s.died
  leaves : ∀ l point, s.loops l = some point → point.leaves = true → s.stopped l = true ∨ s.GaveUp l
  numbered : ∀ n ∈ s.handled, n < s.returned

variable {s t : Client} {l : Nat} {point old : Point}

/-- The loops, what is kept of them, the messages, the stop flag and the attempts are the same. -/
structure Still (s t : Client) : Prop where
  loops : t.loops = s.loops
  started : t.started = s.started
  stopped : t.stopped = s.stopped
  failed : t.failed = s.failed
  died : t.died = s.died
  shouldStop : t.shouldStopProcessing = s.shouldStopProcessing
  attempts : t.recoveryAttempts = s.recoveryAttempts
  messages : t.returned = s.returned ∧ t.handled = s.handled

theorem Inv.still (h : s.Inv) (hs : Still s t) : t.Inv := by
  obtain ⟨hreturned, hhandled⟩ := hs.messages
  refine ⟨⟨?_, ?_, ?_⟩, ?_, ?_, ?_, ?_, ?_, ?_⟩
  · rw [hs.loops]
    exact h.lives.one
  · rw [hreturned, hhandled]
    exact h.lives.handled
  · unfold GaveUp
    rw [hs.started, hs.loops, hs.stopped, hs.failed, hs.died]
    exact h.lives.ends
  · rw [hs.started, hs.loops, hs.died]
    exact h.fresh
  · rw [hs.shouldStop, hs.loops, hs.stopped]
    exact h.stops
  · rw [hs.loops, hs.stopped, hs.attempts, hs.failed]
    exact h.attempts
  · rw [hs.loops, hs.died]
    exact h.quiet
  · unfold GaveUp
    rw [hs.loops, hs.stopped, hs.failed, hs.died]
    exact h.leaves
  · rw [hreturned, hhandled]
    exact h.numbered

theorem Inv.only (h : s.Inv) (hl : s.loops l = some old) {l' : Nat} (hl' : l' ≠ l) : s.loops l' = none := by
  by_contra hne
  refine hl' (h.lives.one l' l (Option.isSome_iff_ne_none.2 hne) ?_)
  rw [hl]
  rfl

theorem Inv.goTo (h : s.Inv) (point : Point) (hl : s.loops l = some old) (hloops : t.loops = update s.loops l (some point))
    (hstarted : t.started = s.started) (hstopped : t.stopped = s.stopped)
    (hstop : t.shouldStopProcessing = s.shouldStopProcessing) (hfailed : ∀ l' ≠ l, t.failed l' = s.failed l')
    (hdied : ∀ l' ≠ l, t.died.count (l', false) = s.died.count (l', false))
    (hmessages : t.returned = s.returned ∧ t.handled = s.handled)
    (hattempts : s.stopped l = false → t.recoveryAttempts ≤ t.failed l + point.attempts)
    (hquiet : point.leaves = false → (l, false) ∉ t.died)
    (hleaves : point.leaves = true → s.stopped l = true ∨ t.GaveUp l) : t.Inv := by
  have hself : t.loops l = some point := by rw [hloops, update_self]
  have hother : ∀ l' ≠ l, t.loops l' = none := by
    intro l' hl'
    rw [hloops, update_of_ne hl']
    exact h.only hl hl'
  have hrunning : ∀ l' point', t.loops l' = some point' → l' = l ∧ point' = point := by
    intro l' point' hl'
    by_cases hne : l' = l
    · rw [hne, hself] at hl'
      exact ⟨hne, (Option.some.inj hl').symm⟩
    · exact nomatch (hother l' hne).symm.trans hl'
  have hbefore : l < s.started := by
    by_contra hge
    exact nomatch (h.fresh l (Nat.not_lt.1 hge)).1.symm.trans hl
  obtain ⟨hreturned, hhandled⟩ := hmessages
  refine ⟨⟨?_, ?_, ?_⟩, ?_, ?_, ?_, ?_, ?_, ?_⟩
  · intro l₁ l₂ h₁ h₂
    obtain ⟨point₁, h₁⟩ := Option.isSome_iff_exists.1 h₁
    obtain ⟨point₂, h₂⟩ := Option.isSome_iff_exists.1 h₂
    rw [(hrunning l₁ _ h₁).1, (hrunning l₂ _ h₂).1]
  · rw [hreturned, hhandled]
    exact h.lives.handled
  · intro l' hl' hnone
    have hne : l' ≠ l := by
      rintro rfl
      exact nomatch hself.symm.trans hnone
    rw [hstarted] at hl'
    unfold GaveUp
    rw [hstopped, hfailed l' hne, hdied l' hne]
    exact h.lives.ends l' hl' (h.only hl hne)
  · intro l' hl'
    rw [hstarted] at hl'
    have hne : l' ≠ l := Nat.ne_of_gt (Nat.lt_of_lt_of_le hbefore hl')
    refine ⟨hother l' hne, fun hmem => ?_⟩
    have hcount := List.count_eq_zero.2 (h.fresh l' hl').2
    rw [← hdied l' hne] at hcount
    exact List.count_eq_zero.1 hcount hmem
  · intro hshould l' hl'
    obtain ⟨point', hl'⟩ := Option.isSome_iff_exists.1 hl'
    rw [hstop] at hshould
    rw [hstopped, (hrunning l' _ hl').1]
    exact h.stops hshould l (by rw [hl]; rfl)
  · intro l' point' hl' hstopped'
    obtain ⟨rfl, rfl⟩ := hrunning l' _ hl'
    rw [hstopped] at hstopped'
    exact hattempts hstopped'
  · intro l' point' hl'
    obtain ⟨rfl, rfl⟩ := hrunning l' _ hl'
    exact hquiet
  · intro l' point' hl'
    obtain ⟨rfl, rfl⟩ := hrunning l' _ hl'
    rw [hstopped]
    exact hleaves
  · rw [hreturned, hhandled]
    exact h.numbered

theorem Inv.finish (h : s.Inv) (hl : s.loops l = some old) (hends : s.stopped l = true ∨ s.GaveUp l) : (s.finish l).Inv := by
  have hself : (s.finish l).loops l = none := update_self _ _ _
  have hnone : ∀ l', (s.finish l).loops l' = none := by
    intro l'
    by_cases hne : l' = l
    · rw [hne]
      exact hself
    · exact (update_of_ne hne _ _).trans (h.only hl hne)
  have hover : ∀ {P : Prop} l' point', (s.finish l).loops l' = some point' → P :=
    fun l' point' hl' => nomatch (hnone l').symm.trans hl'
  refine ⟨⟨?_, h.lives.handled, ?_⟩, ?_, ?_, ?_, ?_, ?_, h.numbered⟩
  · intro l₁ l₂ h₁
    rw [hnone l₁] at h₁
    exact nomatch h₁
  · intro l' hl' _
    by_cases hne : l' = l
    · rw [hne]
      exact hends
    · exact h.lives.ends l' hl' (h.only hl hne)
  · exact fun l' hl' => ⟨hnone l', (h.fresh l' hl').2⟩
  · intro _ l' hl'
    rw [hnone l'] at hl'
    exact nomatch hl'
  · exact fun l' point' hl' => hover l' point' hl'
  · exact fun l' point' hl' => hover l' point' hl'
  · exact fun l' point' hl' => hover l' point' hl'

/-! ## The loop -/

theorem Inv.turn (h : s.Inv) (hl : s.loops l = some old) (hleaves : old.leaves = false) (hold : old.attempts = 0)
    (hcontinues : s.Continues l) : (s.turn l).Inv := by
  have hattempts := h.attempts l old hl
  rw [hold] at hattempts
  unfold Client.turn
  split_ifs with hcondition
  · exact h.goTo _ hl rfl rfl rfl rfl (fun _ _ => rfl) (fun _ _ => rfl) ⟨rfl, rfl⟩ hattempts
      (fun _ => h.quiet l old hl hleaves) nofun
  · refine h.finish hl (.inl ?_)
    obtain hstopped | ⟨hmodule, hinitialized⟩ := hcontinues
    · exact hstopped
    · rw [hmodule, hinitialized, Bool.true_and, Bool.true_and] at hcondition
      refine h.stops ?_ l (by rw [hl]; rfl)
      cases hstop : s.shouldStopProcessing with
      | true => rfl
      | false =>
        rw [hstop] at hcondition
        exact absurd rfl hcondition

theorem Inv.took (h : s.Inv) : s.took.Inv := by
  have hnew : s.handled.count s.returned = 0 :=
    List.count_eq_zero.2 fun hmem => Nat.lt_irrefl _ (h.numbered _ hmem)
  refine ⟨⟨h.lives.one, ?_, h.lives.ends⟩, h.fresh, h.stops, h.attempts, h.quiet, h.leaves, ?_⟩
  · intro n hn
    show (s.handled ++ [s.returned]).count n = 1
    obtain hn | rfl := Nat.lt_succ_iff_lt_or_eq.1 hn
    · rw [List.count_append, h.lives.handled n hn, List.count_singleton, if_neg (by simpa using Nat.ne_of_gt hn)]
    · rw [List.count_append, hnew, List.count_singleton_self]
  · intro n hn
    obtain hn | hn := List.mem_append.1 hn
    · exact Nat.lt_succ_of_lt (h.numbered n hn)
    · rw [List.mem_singleton.1 hn]
      exact Nat.lt_succ_self _

theorem count_died_of_ne {l l' : Nat} (hne : l' ≠ l) (died : List (Nat × Bool)) (recovered : Bool) :
    (died ++ [(l, recovered)]).count (l', false) = died.count (l', false) := by
  rw [List.count_append, List.count_singleton, if_neg, Nat.add_zero]
  simpa using fun h => (hne h.symm).elim

theorem Inv.attemptRecovery (h : s.Inv) (hl : s.loops l = some old) (hleaves : old.leaves = false) (hold : old.attempts = 0)
    (reason : Reason) : (s.attemptRecovery l reason).Inv := by
  have hquiet := h.quiet l old hl hleaves
  have hattempts := h.attempts l old hl
  rw [hold] at hattempts
  unfold Client.attemptRecovery
  split_ifs with hother hmax
  · exact h.goTo _ hl rfl rfl rfl rfl (fun _ _ => rfl) (fun _ _ => rfl) ⟨rfl, rfl⟩ hattempts (fun _ => hquiet)
      nofun
  · refine h.goTo _ hl rfl rfl rfl rfl (fun _ _ => rfl) (fun l' hne => count_died_of_ne hne _ _) ⟨rfl, rfl⟩ hattempts
      nofun (fun _ => ?_)
    cases hstopped : s.stopped l with
    | true => exact .inl rfl
    | false =>
      refine .inr ⟨Nat.le_trans hmax (hattempts hstopped), ?_⟩
      show (s.died ++ [(l, false)]).count (l, false) = 1
      rw [List.count_append, List.count_eq_zero.2 hquiet, List.count_singleton_self]
  · exact h.goTo _ hl rfl rfl rfl rfl (fun _ _ => rfl) (fun _ _ => rfl) ⟨rfl, rfl⟩
      (fun hstopped => Nat.succ_le_succ (hattempts hstopped)) (fun _ => hquiet) nofun

theorem Inv.stopsNow (h : s.Inv) (hl : s.loops l = some old) (hstop : s.shouldStopProcessing = true) : s.stopped l = true :=
  h.stops hstop l (by rw [hl]; rfl)

theorem Inv.received (h : s.Inv) (hl : s.loops l = some .nextMessage) (next : Next)
    (hcontinues : next = .message → s.Continues l) : (s.received l next).Inv := by
  have hquiet : (l, false) ∉ s.died := h.quiet l _ hl rfl
  have hattempts := h.attempts l _ hl
  cases next with
  | message =>
    show (if s.shouldStopProcessing then s.took.finish l else s.took.turn l).Inv
    split_ifs with hstop
    · exact h.took.finish hl (.inl (h.stopsNow hl hstop))
    · exact h.took.turn hl rfl rfl (hcontinues rfl)
  | streamClosed =>
    show (if s.shouldStopProcessing then s.finish l else s.attemptRecovery l .streamClosed).Inv
    split_ifs with hstop
    · exact h.finish hl (.inl (h.stopsNow hl hstop))
    · exact h.attemptRecovery hl rfl rfl _
  | alreadyCalled =>
    have hcounted : Inv { s with consecutiveStreamErrors := s.consecutiveStreamErrors + 1 } :=
      h.still ⟨rfl, rfl, rfl, rfl, rfl, rfl, rfl, rfl, rfl⟩
    unfold Client.received
    split_ifs with hstop hmax
    · exact h.finish hl (.inl (h.stopsNow hl hstop))
    · exact hcounted.attemptRecovery hl rfl rfl _
    · exact hcounted.goTo _ hl rfl rfl rfl rfl (fun _ _ => rfl) (fun _ _ => rfl) ⟨rfl, rfl⟩ hattempts (fun _ => hquiet)
        nofun
  | otherError =>
    show (if s.shouldStopProcessing then s.finish l else s.goTo l .pause).Inv
    split_ifs with hstop
    · exact h.finish hl (.inl (h.stopsNow hl hstop))
    · exact h.goTo _ hl rfl rfl rfl rfl (fun _ _ => rfl) (fun _ _ => rfl) ⟨rfl, rfl⟩ hattempts (fun _ => hquiet)
        nofun

theorem Inv.recovered (h : s.Inv) (point : Point) (hl : s.loops l = some old) (hloops : t.loops = update s.loops l (some point))
    (hpoint : point.leaves = s.shouldStopProcessing) (hstarted : t.started = s.started) (hstopped : t.stopped = s.stopped)
    (hstop : t.shouldStopProcessing = s.shouldStopProcessing) (hfailed : ∀ l' ≠ l, t.failed l' = s.failed l')
    (hdied : t.died = s.died) (hmessages : t.returned = s.returned ∧ t.handled = s.handled)
    (hattempts : s.stopped l = false → t.recoveryAttempts ≤ t.failed l + point.attempts) (hleaves : old.leaves = false) :
    t.Inv := by
  refine h.goTo point hl hloops hstarted hstopped hstop hfailed (fun _ _ => by rw [hdied]) hmessages hattempts (fun _ => ?_)
    (fun hleaves => .inl (h.stopsNow hl (hpoint ▸ hleaves)))
  rw [hdied]
  exact h.quiet l old hl hleaves

theorem Inv.elapsed (h : s.Inv) (hl : s.loops l = some point) (hcontinues : point = .pause → s.Continues l) :
    (s.elapsed l point).Inv := by
  have hattempts := h.attempts l point hl
  cases point with
  | pause => exact h.turn hl rfl rfl (hcontinues rfl)
  | otherRecovery reason =>
    refine h.recovered (.recovered reason (!s.shouldStopProcessing)) hl rfl ?_ rfl rfl rfl (fun _ _ => rfl) rfl
      ⟨rfl, rfl⟩ hattempts rfl
    cases s.shouldStopProcessing <;> rfl
  | delay reason =>
    have hquiet := h.quiet l _ hl rfl
    unfold Client.elapsed
    split_ifs with hstop hmodule
    · refine h.goTo _ hl rfl rfl rfl rfl (fun _ _ => rfl) (fun _ _ => rfl) ⟨rfl, rfl⟩ (fun hstopped => ?_)
        nofun (fun _ => .inl (h.stopsNow hl hstop))
      exact nomatch hstopped.symm.trans (h.stopsNow hl hstop)
    · exact h.goTo _ hl rfl rfl rfl rfl (fun _ _ => rfl) (fun _ _ => rfl) ⟨rfl, rfl⟩ hattempts (fun _ => hquiet)
        nofun
    · exact h.goTo _ hl rfl rfl rfl rfl (fun _ _ => rfl) (fun _ _ => rfl) ⟨rfl, rfl⟩ hattempts (fun _ => hquiet)
        nofun
  | nextMessage => exact h
  | restart reason ok => exact h
  | restarted reason ok => exact h
  | recovered reason result => exact h

theorem Inv.recover (h : s.Inv) {reason : Reason} {ok : Bool} (hl : s.loops l = some (.restarted reason ok)) :
    (s.recover l reason ok).Inv := by
  have hquiet := h.quiet l _ hl rfl
  have hattempts : s.stopped l = false → s.recoveryAttempts ≤ s.failed l + 1 := h.attempts l _ hl
  have hother : ∀ n, ∀ l' ≠ l, update s.failed l n l' = s.failed l' := fun n l' hne => update_of_ne hne _ _
  cases ok with
  | true =>
    refine h.goTo (.recovered reason true) hl rfl rfl rfl rfl (hother 0) (fun l' hne => count_died_of_ne hne _ _)
      ⟨rfl, rfl⟩ (fun _ => Nat.zero_le _) (fun _ hmem => ?_) nofun
    obtain hmem | hmem := List.mem_append.1 hmem
    · exact hquiet hmem
    · exact nomatch (Prod.mk.inj (List.mem_singleton.1 hmem)).2
  | false =>
    unfold Client.recover
    dsimp only
    split_ifs with hmax
    · refine h.goTo (.recovered reason false) hl rfl rfl rfl rfl (hother _) (fun l' hne => count_died_of_ne hne _ _)
        ⟨rfl, rfl⟩ (fun hstopped => ?_) nofun (fun _ => ?_)
      · show s.recoveryAttempts ≤ update s.failed l (s.failed l + 1) l
        rw [update_self]
        exact hattempts hstopped
      · cases hstopped : s.stopped l with
        | true => exact .inl rfl
        | false =>
          refine .inr ⟨?_, ?_⟩
          · show maxRecoveryAttempts ≤ update s.failed l (s.failed l + 1) l
            rw [update_self]
            exact Nat.le_trans hmax (hattempts hstopped)
          · show (s.died ++ [(l, false)]).count (l, false) = 1
            rw [List.count_append, List.count_eq_zero.2 hquiet, List.count_singleton_self]
    · refine h.recovered (.recovered reason (!s.shouldStopProcessing)) hl rfl ?_ rfl rfl rfl (hother _) rfl
        ⟨rfl, rfl⟩ (fun hstopped => ?_) rfl
      · cases s.shouldStopProcessing <;> rfl
      · show s.recoveryAttempts ≤ update s.failed l (s.failed l + 1) l
        rw [update_self]
        exact hattempts hstopped

theorem Inv.startMessageProcessing (h : s.Inv) (hstarts : s.Starts) : s.startMessageProcessing.Inv := by
  unfold Client.startMessageProcessing
  split_ifs with hrunning
  · exact h
  obtain ⟨hnone, hmodule, hinitialized, hstop, hattempts⟩ := hstarts (eq_false_of_ne_true hrunning)
  have hnoLoop : ∀ l, s.loops l = none := by
    intro l
    by_cases hl : l < s.started
    · exact hnone l hl
    · exact (h.fresh l (Nat.not_lt.1 hl)).1
  have hnext : Client.turn { s with messageProcessingStarted := true, started := s.started + 1 } s.started =
      { s with messageProcessingStarted := true, started := s.started + 1 }.goTo s.started .nextMessage := by
    refine if_pos ?_
    show (s.wasmModule && s.wasmInitialized && !s.shouldStopProcessing) = true
    rw [hmodule, hinitialized, hstop]
    rfl
  rw [hnext]
  have honly : ∀ l point, update s.loops s.started (some Point.nextMessage) l = some point →
      l = s.started ∧ point = .nextMessage := by
    intro l point hl
    by_cases hne : l = s.started
    · rw [hne, update_self] at hl
      exact ⟨hne, (Option.some.inj hl).symm⟩
    · rw [update_of_ne hne, hnoLoop l] at hl
      exact nomatch hl
  refine ⟨⟨?_, h.lives.handled, ?_⟩, ?_, ?_, ?_, ?_, ?_, h.numbered⟩
  · intro l l' hl hl'
    obtain ⟨point, hl⟩ := Option.isSome_iff_exists.1 hl
    obtain ⟨point', hl'⟩ := Option.isSome_iff_exists.1 hl'
    rw [(honly l _ hl).1, (honly l' _ hl').1]
  · intro l hl _
    obtain hl | rfl := Nat.lt_succ_iff_lt_or_eq.1 hl
    · exact h.lives.ends l hl (hnoLoop l)
    · rename_i hended
      have hself : update s.loops s.started (some Point.nextMessage) s.started = none := hended
      rw [update_self] at hself
      exact nomatch hself
  · intro l hl
    have hlt : s.started < l := hl
    exact ⟨(update_of_ne (Nat.ne_of_gt hlt) _ _).trans (hnoLoop l), (h.fresh l (Nat.le_of_lt hlt)).2⟩
  · intro hshould
    exact nomatch hstop.symm.trans hshould
  · intro l point _ _
    show s.recoveryAttempts ≤ _
    rw [hattempts]
    exact Nat.zero_le _
  · intro l point hl _
    rw [(honly l point hl).1]
    exact (h.fresh _ (Nat.le_refl _)).2
  · intro l point hl hleaves
    rw [(honly l point hl).2] at hleaves
    exact nomatch hleaves

theorem Inv.reopened (h : s.Inv) (hstarts : s.Starts) : s.reopened.Inv :=
  (h.startMessageProcessing hstarts).still ⟨rfl, rfl, rfl, rfl, rfl, rfl, rfl, rfl, rfl⟩

theorem reopened_of_running (hl : s.loops l = some old) (hbefore : l < s.started) (hstarts : s.Starts) :
    s.reopened = { s with initializationComplete := true } := by
  unfold Client.reopened Client.startMessageProcessing
  split_ifs with hrunning
  · rfl
  · exact nomatch ((hstarts (eq_false_of_ne_true hrunning)).1 l hbefore).symm.trans hl

theorem Inv.before (h : s.Inv) (hl : s.loops l = some old) : l < s.started := by
  by_contra hge
  exact nomatch (h.fresh l (Nat.not_lt.1 hge)).1.symm.trans hl

theorem Inv.proceeded (h : s.Inv) (hl : s.loops l = some point) (hopens : point.opens = true → s.Starts)
    (hturns : point.turns = true → s.Continues l) : (s.proceeded l point).Inv := by
  have hattempts := h.attempts l point hl
  cases point with
  | restart reason ok =>
    have hquiet := h.quiet l _ hl rfl
    match ok with
    | none => exact h
    | some false =>
      exact h.goTo (.restarted reason false) hl rfl rfl rfl rfl (fun _ _ => rfl) (fun _ _ => rfl) ⟨rfl, rfl⟩
        hattempts (fun _ => hquiet) nofun
    | some true =>
      show (s.reopened.goTo l (.restarted reason true)).Inv
      rw [reopened_of_running hl (h.before hl) (hopens rfl)]
      exact h.goTo (.restarted reason true) hl rfl rfl rfl rfl (fun _ _ => rfl) (fun _ _ => rfl) ⟨rfl, rfl⟩
        hattempts (fun _ => hquiet) nofun
  | restarted reason ok => exact h.recover hl
  | recovered reason result =>
    match reason, result with
    | .streamClosed, true => exact h.turn hl rfl rfl (hturns rfl)
    | .maxConsecutiveErrors, true =>
      have hreset : Inv { s with consecutiveStreamErrors := 0 } := h.still ⟨rfl, rfl, rfl, rfl, rfl, rfl, rfl, rfl, rfl⟩
      exact hreset.turn hl rfl rfl (hturns rfl)
    | .streamClosed, false => exact h.finish hl (h.leaves l _ hl rfl)
    | .maxConsecutiveErrors, false => exact h.finish hl (h.leaves l _ hl rfl)
  | nextMessage => exact h
  | pause => exact h
  | otherRecovery reason => exact h
  | delay reason => exact h

/-! ## The calls -/

theorem Inv.markStopped (h : s.Inv) : s.markStopped.Inv := by
  have hmarked : ∀ l, s.stopped l = true → s.markStopped.stopped l = true := by
    intro l hl
    show (s.stopped l || (s.loops l).isSome) = true
    rw [hl, Bool.true_or]
  have hunmarked : ∀ l, s.markStopped.stopped l = false → s.stopped l = false := by
    intro l hl
    exact (Bool.or_eq_false_iff.1 hl).1
  refine ⟨⟨h.lives.one, h.lives.handled, ?_⟩, h.fresh, ?_, ?_, h.quiet, ?_, h.numbered⟩
  · exact fun l hl hnone => (h.lives.ends l hl hnone).imp (hmarked l) id
  · exact fun hstop l hl => hmarked l (h.stops hstop l hl)
  · exact fun l point hl hstopped => h.attempts l point hl (hunmarked l hstopped)
  · exact fun l point hl hleaves => (h.leaves l point hl hleaves).imp (hmarked l) id

theorem Inv.stopMessageProcessing (h : s.Inv) : s.stopMessageProcessing.Inv := by
  have hmarked := h.markStopped
  obtain ⟨hone, hhandled, hends⟩ := hmarked.lives
  refine ⟨⟨hone, hhandled, hends⟩, hmarked.fresh, fun _ l hl => ?_, hmarked.attempts, hmarked.quiet, hmarked.leaves, hmarked.numbered⟩
  show (s.stopped l || (s.loops l).isSome) = true
  have hl : (s.loops l).isSome = true := hl
  rw [hl, Bool.or_true]

theorem Inv.init (h : s.Inv) : s.init.Inv := by
  obtain ⟨hone, hhandled, hends⟩ := h.lives
  exact ⟨⟨hone, hhandled, hends⟩, h.fresh, nofun, fun _ _ _ _ => Nat.zero_le _, h.quiet, h.leaves,
    h.numbered⟩

theorem still_settled (i : Nat) (ok : Bool) (call : Call) : Still s (s.settled i ok call) := by
  unfold Client.settled
  split
  · exact ⟨rfl, rfl, rfl, rfl, rfl, rfl, rfl, rfl, rfl⟩
  · exact ⟨rfl, rfl, rfl, rfl, rfl, rfl, rfl, rfl, rfl⟩
  · exact ⟨rfl, rfl, rfl, rfl, rfl, rfl, rfl, rfl, rfl⟩
  · exact ⟨rfl, rfl, rfl, rfl, rfl, rfl, rfl, rfl, rfl⟩
  · exact ⟨rfl, rfl, rfl, rfl, rfl, rfl, rfl, rfl, rfl⟩

theorem Inv.resumed (h : s.Inv) {i : Nat} {call : Call} (hopens : call.opens = true → s.Starts) : (s.resumed i call).Inv := by
  unfold Client.resumed
  split
  · split_ifs
    · exact h.still ⟨rfl, rfl, rfl, rfl, rfl, rfl, rfl, rfl, rfl⟩
    · exact h.still ⟨rfl, rfl, rfl, rfl, rfl, rfl, rfl, rfl, rfl⟩
  · exact (h.reopened (hopens rfl)).still ⟨rfl, rfl, rfl, rfl, rfl, rfl, rfl, rfl, rfl⟩
  · exact (h.reopened (hopens rfl)).still ⟨rfl, rfl, rfl, rfl, rfl, rfl, rfl, rfl, rfl⟩
  · exact h.still ⟨rfl, rfl, rfl, rfl, rfl, rfl, rfl, rfl, rfl⟩
  · exact h
  · exact h
  · exact h
  · exact h
  · exact h.still ⟨rfl, rfl, rfl, rfl, rfl, rfl, rfl, rfl, rfl⟩

/-! ## Runs -/

theorem inv_step (act : Act) (h : s.Inv) (hmeets : s.Meets act) : (s.step act).Inv := by
  cases act with
  | init => exact h.init
  | restart =>
    show (if s.wasmModule then { s with wasmInitialized := false }.begin (.restart none) else s).Inv
    split_ifs
    · exact h.still ⟨rfl, rfl, rfl, rfl, rfl, rfl, rfl, rfl, rfl⟩
    · exact h
  | stop => exact h.stopMessageProcessing
  | close =>
    show (if s.wasmModule then s.markStopped.begin (.close none) else s.markStopped.closed).Inv
    split_ifs
    · exact h.markStopped.still ⟨rfl, rfl, rfl, rfl, rfl, rfl, rfl, rfl, rfl⟩
    · exact h.markStopped.still ⟨rfl, rfl, rfl, rfl, rfl, rfl, rfl, rfl, rfl⟩
  | settle i ok =>
    simp only [step]
    split
    · exact h.still (still_settled i ok _)
    · exact h
  | resume i =>
    simp only [step]
    split
    · rename_i call hcall
      exact h.resumed (hmeets call hcall)
    · exact h
  | receive l next =>
    simp only [step]
    split
    · rename_i hl
      exact h.received hl next fun hnext => hmeets hnext hl
    · exact h
  | timer l =>
    simp only [step]
    split
    · rename_i point hl
      exact h.elapsed hl fun hpause => hmeets (hpause ▸ hl)
    · exact h
  | settleRestart l ok =>
    simp only [step]
    split
    · rename_i reason hl
      have hattempts : s.stopped l = false → s.recoveryAttempts ≤ s.failed l + 1 := h.attempts l _ hl
      exact h.goTo (.restart reason (some ok)) hl rfl rfl rfl rfl (fun _ _ => rfl) (fun _ _ => rfl) ⟨rfl, rfl⟩
        hattempts (fun _ => h.quiet l _ hl rfl) (by rintro ⟨⟩)
    · exact h
  | proceed l =>
    simp only [step]
    split
    · rename_i point hl
      obtain ⟨hopens, hturns⟩ := hmeets point hl
      exact h.proceeded hl hopens hturns
    · exact h

theorem inv_new : new.Inv where
  lives := ⟨fun _ _ h => (nomatch h), nofun, nofun⟩
  fresh := fun _ _ => ⟨rfl, nofun⟩
  stops := nofun
  attempts := fun _ _ h => nomatch h
  quiet := fun _ _ h => nomatch h
  leaves := fun _ _ h => nomatch h
  numbered := nofun

theorem loop_lives (run : Reaches step Meets (· = new) s) : s.Lives := by
  have hinv : s.Inv := by
    refine run.invariant ?_ fun s act hs hmeets => inv_step act hs hmeets
    rintro s rfl
    exact inv_new
  exact hinv.lives

/-- An `init` that connects, and then the acts. -/
def opened (acts : List Act) : Client :=
  ([Act.init, .settle 0 true, .resume 0, .settle 0 true, .resume 0] ++ acts).foldl step new

/-- Three recoveries fail, each while a restart of the caller's succeeds: the loop gives up. -/
theorem loop_lives_gave_up :
    let round : Nat → List Act := fun k => [.receive 0 .streamClosed, .timer 0, .restart, .settleRestart 0 false, .settle k true, .resume k,
      .proceed 0, .proceed 0, .proceed 0]
    let s := opened ([.receive 0 .message] ++ round 1 ++ round 2 ++ round 3)
    s.Lives ∧ s.loops 0 = none ∧ s.stopped 0 = false ∧ s.died = [(0, false)] :=
  ⟨loop_lives (reaches_foldl (by decide +kernel)), by decide +kernel, by decide +kernel, by decide +kernel⟩

/-- A failed recovery leaves the loop to find the WASM client not initialised; a stop lets `init` start a second loop beside one
that still awaits its message; and after a stop `restart_ws_connection` starts a loop that ends at once. -/
theorem recovery_fails_silently :
    ¬ (opened [.receive 0 .streamClosed, .timer 0, .settleRestart 0 false, .proceed 0, .proceed 0, .proceed 0]).Lives ∧
    ¬ (opened [.stop, .close, .settle 1 true, .resume 1, .init, .settle 2 true, .resume 2, .settle 2 true, .resume 2]).Lives ∧
    ¬ (opened [.stop, .receive 0 .message, .restart, .settle 1 true, .resume 1]).Lives := by
  refine ⟨fun h => ?_, fun h => ?_, fun h => ?_⟩
  · obtain hstopped | ⟨hfailed, -⟩ := h.ends 0 (by decide +kernel) (by decide +kernel)
    · exact absurd hstopped (by decide +kernel)
    · exact absurd hfailed (by decide +kernel)
  · exact absurd (h.one 0 1 (by decide +kernel) (by decide +kernel)) (by decide)
  · obtain hstopped | ⟨hfailed, -⟩ := h.ends 1 (by decide +kernel) (by decide +kernel)
    · exact absurd hstopped (by decide +kernel)
    · exact absurd hfailed (by decide +kernel)

end Client

end CitadelAgent.PageClient.MessageLoop
