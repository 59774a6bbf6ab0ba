import Mathlib

/-!
# The registry of hosted ILMs

`citadel-internal-service/src/kernel/ilm/registry.rs`, for one account: a start reserves the account's slot under its
ticket, loads the ILM without the lock, and then finds its reservation or not; a stop empties the slot. A host lives as
long as the slot, a start or a caller has it.

* `Registry`, `Registry.step` : the slot, the starts in progress and the handles callers have of each host;
* `Registry.Alive` : a host that has been built and not yet dropped;
* `Registry.Base` : what holds of every run: reservations belong to starts, and a discarded host is given to no one;
* `one_ilm` : there is never more than one host alive, as long as no start begins beside an older host or start.
-/

namespace CitadelAgent.Ilm
open Function

inductive Slot
  | starting (ticket : Nat)
  | running (host : Nat)
  deriving DecidableEq

/-- A start that has reserved the slot: `IlmHost::start` is loading, or has come back. -/
inductive Start
  | loading
  | loaded (host : Option Nat)
  deriving DecidableEq

structure Registry where
  slot : Option Slot
  tickets : Nat
  starts : Nat → Option Start
  built : Nat
  held : Nat → Nat
  /-- The hosts that were returned to a caller, and those that were dropped because their start was stopped. -/
  returned : List Nat
  discarded : List Nat

inductive Act
  | ensure
  | load (ticket : Nat) (ok : Bool)
  | conclude (ticket : Nat)
  | get
  | stop
  | drop (host : Nat)

namespace Registry

def give (host : Nat) (s : Registry) : Registry :=
  { s with held := update s.held host (s.held host + 1), returned := host :: s.returned }

def step (s : Registry) : Act → Registry
  | .ensure =>
      let ticket := s.tickets
      let s := { s with tickets := ticket + 1 }
      match s.slot with
      | some (.running host) => s.give host
      | some (.starting _) => s
      | none => { s with slot := some (.starting ticket), starts := update s.starts ticket (some .loading) }
  | .load ticket ok =>
      if s.starts ticket = some .loading then
        if ok = true then
          { s with built := s.built + 1, starts := update s.starts ticket (some (.loaded (some s.built))) }
        else { s with starts := update s.starts ticket (some (.loaded none)) }
      else s
  | .conclude ticket =>
      match s.starts ticket with
      | some (.loaded result) =>
          let stillReserved := s.slot = some (.starting ticket)
          let s := { s with starts := update s.starts ticket none }
          match result with
          | none => if stillReserved then { s with slot := none } else s
          | some host =>
              if stillReserved then { s with slot := some (.running host) }.give host
              else { s with discarded := host :: s.discarded }
      | _ => s
  | .get =>
      match s.slot with
      | some (.running host) => s.give host
      | _ => s
  | .stop => { s with slot := none }
  | .drop host => { s with held := update s.held host (s.held host - 1) }

/-- The host has been built and not yet dropped: the slot, a start or a caller has it. -/
def Alive (s : Registry) (host : Nat) : Prop :=
  s.slot = some (.running host) ∨ (∃ ticket, s.starts ticket = some (.loaded (some host))) ∨ 0 < s.held host

end Registry

/-- The states the registry reaches for one account, by steps that meet `condition` before they are taken. -/
inductive RegistryRun (condition : Registry → Act → Prop) : Registry → Prop
  | start : RegistryRun condition ⟨none, 0, fun _ => none, 0, fun _ => 0, [], []⟩
  | step {s : Registry} (act : Act) : RegistryRun condition s → condition s act → RegistryRun condition (s.step act)

/-- No start begins while an earlier one is in progress or a caller still has a host. -/
def Registry.StartsAlone (s : Registry) : Act → Prop
  | .ensure => s.slot = none → (∀ ticket, s.starts ticket = none) ∧ ∀ host, s.held host = 0
  | _ => True

namespace Registry

variable {s : Registry}

/-! ## Reservations and discarded hosts -/

structure Base (s : Registry) : Prop where
  tickets : ∀ ticket, s.tickets ≤ ticket → s.starts ticket = none
  reserved : ∀ ticket, s.slot = some (.starting ticket) → s.starts ticket ≠ none
  loaded : ∀ ticket host, s.starts ticket = some (.loaded (some host)) →
    host < s.built ∧ host ∉ s.returned ∧ host ∉ s.discarded ∧ s.slot ≠ some (.running host) ∧
      ∀ ticket', s.starts ticket' = some (.loaded (some host)) → ticket' = ticket
  running : ∀ host, s.slot = some (.running host) → host < s.built ∧ host ∉ s.discarded
  returned : ∀ host ∈ s.returned, host < s.built ∧ host ∉ s.discarded
  discarded : ∀ host ∈ s.discarded, host < s.built

theorem Base.give (h : s.Base) {host : Nat} (hrunning : s.slot = some (.running host)) : (s.give host).Base := by
  obtain ⟨hlt, hnot⟩ := h.running host hrunning
  refine ⟨h.tickets, h.reserved, fun ticket host' hl => ?_, h.running, fun host' hr => ?_, h.discarded⟩
  · obtain ⟨hb, hr, hd, hs, ht⟩ := h.loaded ticket host' hl
    refine ⟨hb, ?_, hd, hs, ht⟩
    rintro (_ | ⟨_, hr'⟩)
    · exact hs hrunning
    · exact hr hr'
  · rcases List.mem_cons.mp hr with rfl | hr
    · exact ⟨hlt, hnot⟩
    · exact h.returned host' hr

theorem Base.forget (h : s.Base) (ticket : Nat) {slot : Option Slot}
    (hslot : slot = s.slot ∨ ∀ t host, slot ≠ some (.starting t) ∧ slot ≠ some (.running host))
    (hne : slot ≠ some (.starting ticket)) : Base { s with slot, starts := update s.starts ticket none } := by
  refine ⟨fun t ht => ?_, fun t ht => ?_, fun t host hl => ?_, fun host hr => ?_, h.returned, h.discarded⟩
  · by_cases htt : t = ticket
    · simp [htt]
    · simp [htt, h.tickets t ht]
  · have htt : t ≠ ticket := by
      rintro rfl
      exact hne ht
    rcases hslot with rfl | hslot
    · simpa [htt] using h.reserved t ht
    · exact absurd ht (hslot t 0).1
  · have htt : t ≠ ticket := by
      rintro rfl
      simp at hl
    obtain ⟨hb, hr, hd, hs, hu⟩ := h.loaded t host (by simpa [htt] using hl)
    refine ⟨hb, hr, hd, ?_, fun t' ht' => hu t' ?_⟩
    · rcases hslot with rfl | hslot
      · exact hs
      · exact (hslot t host).2
    · by_cases htt' : t' = ticket
      · simp [htt'] at ht'
      · simpa [htt'] using ht'
  · rcases hslot with rfl | hslot
    · exact h.running host hr
    · exact absurd hr (hslot 0 host).2

theorem Base.step (h : s.Base) (act : Act) : (s.step act).Base := by
  cases act with
  | ensure =>
      have hnext : Base { s with tickets := s.tickets + 1 } :=
        ⟨fun t ht => h.tickets t (Nat.le_of_succ_le ht), h.reserved, h.loaded, h.running, h.returned, h.discarded⟩
      simp only [Registry.step]
      split
      · rename_i host hslot
        exact hnext.give hslot
      · exact hnext
      · rename_i hslot
        have hnew : s.starts s.tickets = none := h.tickets _ (Nat.le_refl _)
        refine ⟨fun t ht => ?_, fun t ht => ?_, fun t host hl => ?_, fun host hr => by simp at hr, h.returned, h.discarded⟩
        · have htt : t ≠ s.tickets := by
            rintro rfl
            exact Nat.not_succ_le_self _ ht
          simpa [htt] using h.tickets t (Nat.le_of_succ_le ht)
        · obtain rfl : s.tickets = t := by simpa using ht
          simp
        · have htt : t ≠ s.tickets := by
            rintro rfl
            simp at hl
          obtain ⟨hb, hr, hd, -, hu⟩ := h.loaded t host (by simpa [htt] using hl)
          refine ⟨hb, hr, hd, by simp, fun t' ht' => hu t' ?_⟩
          by_cases htt' : t' = s.tickets
          · simp [htt'] at ht'
          · simpa [htt'] using ht'
  | load ticket ok =>
      simp only [Registry.step]
      split
      · rename_i hloading
        have hlt : ticket < s.tickets := by
          by_contra hnot
          simp [h.tickets ticket (by omega)] at hloading
        -- the start comes back with `result`, a host that is new if there is one
        have hback : ∀ (result : Option Nat) (built : Nat), s.built ≤ built →
            (∀ host, result = some host → s.built ≤ host ∧ host < built) →
            Base { s with built, starts := update s.starts ticket (some (.loaded result)) } := by
          intro result built hle hresult
          refine ⟨fun t ht => ?_, fun t ht => ?_, fun t host hl => ?_, fun host hr => ?_, fun host hr => ?_,
            fun host hd => Nat.lt_of_lt_of_le (h.discarded host hd) hle⟩
          · have htt : t ≠ ticket := by
              rintro rfl
              exact absurd ht (by simpa using hlt)
            simpa [htt] using h.tickets t ht
          · by_cases htt : t = ticket
            · simp [htt]
            · simpa [htt] using h.reserved t ht
          · by_cases htt : t = ticket
            · subst htt
              obtain ⟨hge, hlt'⟩ := hresult host (by simpa using hl)
              refine ⟨hlt', fun hr => ?_, fun hd => ?_, fun hs => ?_, fun t' ht' => ?_⟩
              · exact absurd (h.returned host hr).1 (by omega)
              · exact absurd (h.discarded host hd) (by omega)
              · exact absurd (h.running host hs).1 (by omega)
              · by_contra htt'
                have := (h.loaded t' host (by simpa [htt'] using ht')).1
                omega
            · obtain ⟨hb, hr, hd, hs, hu⟩ := h.loaded t host (by simpa [htt] using hl)
              refine ⟨Nat.lt_of_lt_of_le hb hle, hr, hd, hs, fun t' ht' => ?_⟩
              by_cases htt' : t' = ticket
              · subst htt'
                have := (hresult host (by simpa using ht')).1
                omega
              · exact hu t' (by simpa [htt'] using ht')
          · exact ⟨Nat.lt_of_lt_of_le (h.running host hr).1 hle, (h.running host hr).2⟩
          · exact ⟨Nat.lt_of_lt_of_le (h.returned host hr).1 hle, (h.returned host hr).2⟩
        split
        · refine hback (some s.built) (s.built + 1) (by omega) fun host hhost => ?_
          obtain rfl := Option.some.inj hhost
          omega
        · exact hback none s.built (Nat.le_refl _) fun host hhost => nomatch hhost
      · exact h
  | conclude ticket =>
      simp only [Registry.step]
      split
      · rename_i result hloaded
        cases result with
        | none =>
            simp only
            split
            · exact h.forget ticket (.inr (by simp)) (by simp)
            · rename_i hnot
              exact h.forget ticket (.inl rfl) hnot
        | some host =>
            obtain ⟨hb, hr, hd, hs, hu⟩ := h.loaded ticket host hloaded
            simp only
            split
            · have hfree : Base { s with slot := none, starts := update s.starts ticket none } :=
                h.forget ticket (.inr (by simp)) (by simp)
              have hrunning : Base { s with slot := some (.running host), starts := update s.starts ticket none } := by
                refine ⟨hfree.tickets, fun t ht => by simp at ht, fun t host' hl => ?_, fun host' hr' => ?_, h.returned,
                  h.discarded⟩
                · obtain ⟨hb', hr', hd', -, hu'⟩ := hfree.loaded t host' hl
                  refine ⟨hb', hr', hd', ?_, hu'⟩
                  intro heq
                  obtain rfl : host = host' := by simpa using heq
                  have htt : t ≠ ticket := by
                    rintro rfl
                    simp at hl
                  exact htt (hu t (by simpa [htt] using hl))
                · obtain rfl : host = host' := by simpa using hr'
                  exact ⟨hb, hd⟩
              exact hrunning.give rfl
            · rename_i hnot
              have hfree : Base { s with starts := update s.starts ticket none } := h.forget ticket (.inl rfl) hnot
              refine ⟨hfree.tickets, hfree.reserved, fun t host' hl => ?_, fun host' hr' => ?_, fun host' hr' => ?_,
                fun host' hd' => ?_⟩
              · obtain ⟨hb', hr', hd', hs', hu'⟩ := hfree.loaded t host' hl
                refine ⟨hb', hr', ?_, hs', hu'⟩
                rintro (_ | ⟨_, hmem⟩)
                · have htt : t ≠ ticket := by
                    rintro rfl
                    simp at hl
                  exact htt (hu t (by simpa [htt] using hl))
                · exact hd' hmem
              · obtain ⟨hb', hd'⟩ := h.running host' hr'
                refine ⟨hb', ?_⟩
                rintro (_ | ⟨_, hmem⟩)
                · exact hs hr'
                · exact hd' hmem
              · obtain ⟨hb', hd'⟩ := h.returned host' hr'
                refine ⟨hb', ?_⟩
                rintro (_ | ⟨_, hmem⟩)
                · exact hr hr'
                · exact hd' hmem
              · rcases List.mem_cons.mp hd' with rfl | hd'
                · exact hb
                · exact h.discarded host' hd'
      · exact h
  | get =>
      simp only [Registry.step]
      split
      · rename_i host hslot
        exact h.give hslot
      · exact h
  | stop =>
      refine ⟨h.tickets, fun t ht => by simp [Registry.step] at ht, fun t host hl => ?_,
        fun host hr => by simp [Registry.step] at hr, h.returned, h.discarded⟩
      obtain ⟨hb, hr, hd, -, hu⟩ := h.loaded t host hl
      exact ⟨hb, hr, hd, by simp [Registry.step], hu⟩
  | drop host => exact ⟨h.tickets, h.reserved, h.loaded, h.running, h.returned, h.discarded⟩

/-! ## One host -/

structure One (s : Registry) : Prop where
  starts : ∀ ticket ticket', s.starts ticket ≠ none → s.starts ticket' ≠ none → ticket = ticket'
  quiet : ∀ ticket, s.starts ticket ≠ none →
    (s.slot = none ∨ s.slot = some (.starting ticket)) ∧ ∀ host, s.held host = 0
  host : ∃ host, (∀ host', 0 < s.held host' → host' = host) ∧ ∀ host', s.slot = some (.running host') → host' = host

theorem One.give (h : s.One) {host : Nat} (hrunning : s.slot = some (.running host)) : (s.give host).One := by
  obtain ⟨only, hheld, hslot⟩ := h.host
  obtain rfl := hslot host hrunning
  refine ⟨h.starts, fun ticket hne => ?_, host, fun host' hpos => ?_, hslot⟩
  · rcases (h.quiet ticket hne).1 with hs | hs <;> simp [hrunning] at hs
  · by_cases hhost : host' = host
    · exact hhost
    · exact hheld host' (by simpa [Registry.give, hhost] using hpos)

theorem One.changes (h : s.One) {ticket : Nat} (hthere : s.starts ticket ≠ none) (built : Nat) (next : Option Start)
    (discarded : List Nat) :
    One { s with built, starts := update s.starts ticket next, discarded } := by
  have hsub : ∀ t, update s.starts ticket next t ≠ none → s.starts t ≠ none := by
    intro t ht
    by_cases htt : t = ticket
    · exact htt ▸ hthere
    · simpa [htt] using ht
  exact ⟨fun t t' ht ht' => h.starts t t' (hsub t ht) (hsub t' ht'), fun t ht => h.quiet t (hsub t ht), h.host⟩

theorem One.step (h : s.One) {act : Act} (halone : s.StartsAlone act) : (s.step act).One := by
  cases act with
  | ensure =>
      have hnext : One { s with tickets := s.tickets + 1 } := ⟨h.starts, h.quiet, h.host⟩
      simp only [Registry.step]
      split
      · rename_i host hslot
        exact hnext.give hslot
      · exact hnext
      · rename_i hslot
        obtain ⟨hnone, hheld⟩ := halone hslot
        have honly : ∀ t, update s.starts s.tickets (some .loading) t ≠ none → t = s.tickets := by
          intro t ht
          by_contra htt
          simp [htt, hnone] at ht
        refine ⟨fun t t' ht ht' => (honly t ht).trans (honly t' ht').symm, fun t ht => ⟨?_, hheld⟩, 0, fun host' hpos => ?_,
          fun host' hs => by simp at hs⟩
        · rw [honly t ht]
          exact .inr rfl
        · simp [hheld] at hpos
  | load ticket ok =>
      simp only [Registry.step]
      split
      · rename_i hloading
        have hthere : s.starts ticket ≠ none := by simp [hloading]
        split
        · exact h.changes hthere _ _ _
        · exact h.changes hthere _ _ _
      · exact h
  | conclude ticket =>
      simp only [Registry.step]
      split
      · rename_i result hloaded
        have hthere : s.starts ticket ≠ none := by simp [hloaded]
        obtain ⟨-, hheld⟩ := h.quiet ticket hthere
        have hnone : ∀ t, update s.starts ticket none t = none := by
          intro t
          by_cases htt : t = ticket
          · simp [htt]
          · by_contra hne
            exact htt (h.starts t ticket (by simpa [htt] using hne) hthere)
        cases result with
        | none =>
            simp only
            split
            · refine ⟨fun t t' ht => absurd (hnone t) ht, fun t ht => absurd (hnone t) ht, 0, fun host' hpos => ?_,
                fun host' hs => by simp at hs⟩
              simp [hheld] at hpos
            · exact h.changes hthere _ _ _
        | some host =>
            simp only
            split
            · apply One.give _ rfl
              refine ⟨fun t t' ht => absurd (hnone t) ht, fun t ht => absurd (hnone t) ht, host, fun host' hpos => ?_,
                fun host' hs => ?_⟩
              · simp [hheld] at hpos
              · simpa using hs.symm
            · exact h.changes hthere _ _ _
      · exact h
  | get =>
      simp only [Registry.step]
      split
      · rename_i host hslot
        exact h.give hslot
      · exact h
  | stop =>
      obtain ⟨only, hheld, -⟩ := h.host
      exact ⟨h.starts, fun t ht => ⟨.inl rfl, (h.quiet t ht).2⟩, only, hheld, fun host' hs => by simp [Registry.step] at hs⟩
  | drop host =>
      obtain ⟨only, hheld, hslot⟩ := h.host
      have hle : ∀ host', update s.held host (s.held host - 1) host' ≤ s.held host' := by
        intro host'
        by_cases hhost : host' = host
        · simp [hhost]
        · simp [hhost]
      refine ⟨h.starts, fun t ht => ⟨(h.quiet t ht).1, fun host' => ?_⟩, only, fun host' hpos => ?_, hslot⟩
      · exact Nat.le_zero.mp ((h.quiet t ht).2 host' ▸ hle host')
      · exact hheld host' (Nat.lt_of_lt_of_le hpos (hle host'))

theorem One.unique (h : s.One) {host host' : Nat} (hhost : s.Alive host) (hhost' : s.Alive host') : host = host' := by
  by_cases hstart : ∃ ticket, s.starts ticket ≠ none
  · -- only the start has a host
    obtain ⟨ticket, hne⟩ := hstart
    obtain ⟨hslot, hheld⟩ := h.quiet ticket hne
    have hloaded : ∀ {host}, s.Alive host → s.starts ticket = some (.loaded (some host)) := by
      intro host hhost
      rcases hhost with hs | ⟨t, ht⟩ | hpos
      · rcases hslot with hslot | hslot <;> simp [hslot] at hs
      · rwa [h.starts t ticket (by simp [ht]) hne] at ht
      · simp [hheld] at hpos
    have heq := (hloaded hhost).symm.trans (hloaded hhost')
    simpa using heq
  · have hnone : ∀ ticket, s.starts ticket = none := fun ticket => by
      by_contra hne
      exact hstart ⟨ticket, hne⟩
    obtain ⟨only, hheld, hslot⟩ := h.host
    have hall : ∀ {host}, s.Alive host → host = only := by
      intro host hhost
      rcases hhost with hs | ⟨t, ht⟩ | hpos
      · exact hslot host hs
      · simp [hnone] at ht
      · exact hheld host hpos
    exact (hall hhost).trans (hall hhost').symm

end Registry

theorem RegistryRun.base {condition : Registry → Act → Prop} {s : Registry} (h : RegistryRun condition s) : s.Base := by
  induction h with
  | start =>
      exact ⟨fun _ _ => rfl, nofun, fun _ _ hl => (nomatch hl), nofun,
        nofun, nofun⟩
  | step act _ _ ih => exact ih.step act

theorem RegistryRun.one {s : Registry} (h : RegistryRun Registry.StartsAlone s) : s.One := by
  induction h with
  | start =>
      exact ⟨fun _ _ ht => absurd rfl ht, fun _ ht => absurd rfl ht, 0, fun _ hpos => absurd hpos (Nat.lt_irrefl 0),
        nofun⟩
  | step act _ halone ih => exact ih.step halone

/-- At most one ILM of the account at any time; a host whose start was stopped goes to no caller; and when no `ensure` is
in progress the slot is not reserved. -/
theorem one_ilm {s : Registry} (h : RegistryRun Registry.StartsAlone s) :
    (∀ host host', s.Alive host → s.Alive host' → host = host') ∧
      (∀ host ∈ s.discarded, host ∉ s.returned) ∧
      ((∀ ticket, s.starts ticket = none) → ∀ ticket, s.slot ≠ some (.starting ticket)) :=
  ⟨fun _ _ => h.one.unique, fun host hd hr => (h.base.returned host hr).2 hd,
    fun hnone ticket hs => h.base.reserved ticket hs (hnone ticket)⟩

def startedAgain : Registry :=
  [Act.ensure, .stop, .load 0 true, .conclude 0, .ensure, .load 1 true, .conclude 1].foldl Registry.step
    ⟨none, 0, fun _ => none, 0, fun _ => 0, [], []⟩

theorem one_ilm_again :
    (∀ host host', startedAgain.Alive host → startedAgain.Alive host' → host = host') ∧
      (∀ host ∈ startedAgain.discarded, host ∉ startedAgain.returned) ∧
      ((∀ ticket, startedAgain.starts ticket = none) → ∀ ticket, startedAgain.slot ≠ some (.starting ticket)) := by
  apply one_ilm
  simp only [startedAgain, List.foldl_cons, List.foldl_nil]
  refine .step _ (.step _ (.step _ (.step _ (.step _ (.step _ (.step _ .start ?_) ?_) ?_) ?_) ?_) ?_) ?_
  · exact fun _ => ⟨fun _ => rfl, fun _ => rfl⟩
  · trivial
  · trivial
  · trivial
  · refine fun _ => ⟨fun ticket => ?_, fun _ => rfl⟩
    match ticket with
    | 0 => rfl
    | ticket + 1 => rfl
  · trivial
  · trivial

/-- The session ends while a caller still has its ILM, and comes back: two ILMs over the account's keys. -/
def stoppedAndBack : Registry :=
  [Act.ensure, .load 0 true, .conclude 0, .stop, .ensure, .load 1 true, .conclude 1].foldl Registry.step
    ⟨none, 0, fun _ => none, 0, fun _ => 0, [], []⟩

theorem two_ilms : RegistryRun (fun _ _ => True) stoppedAndBack ∧ stoppedAndBack.Alive 0 ∧ stoppedAndBack.Alive 1 := by
  refine ⟨?_, .inr (.inr (by decide)), .inr (.inr (by decide))⟩
  simp only [stoppedAndBack, List.foldl_cons, List.foldl_nil]
  exact .step _ (.step _ (.step _ (.step _ (.step _ (.step _ (.step _ .start trivial) trivial) trivial) trivial) trivial)
    trivial) trivial

end CitadelAgent.Ilm
