import CitadelAgent.Lib.Doubling
import CitadelAgent.Reconnect.Policy

/-!
# The schedule of a run

`reconnect/task.rs`, the loop of `run`, for a server no attempt reaches: each attempt takes as long as it takes, fails
as it fails, and each wait is over as late as the scheduler makes it.

* `tryAt` : the attempts, one after the other;
* `nanos_delayBefore` : the waits double up to the longest, and nothing overflows;
* `schedule_ends` : each attempt starts by the limit of the failure before it, and the run ends.
-/

namespace CitadelAgent.Reconnect

/-- How one attempt went, in nanoseconds: how much too late its wait was over, how long it took, why it failed. -/
structure Outcome where
  late : Nat
  took : Nat
  kind : FailureKind

/-- An attempt about to be made, and how long after the run started. -/
structure Try where
  attempt : UInt32
  startsAt : Nat
  deriving DecidableEq

namespace ReconnectPolicy

section
variable (p : ReconnectPolicy) (keepAliveCheck : Duration) (keepAlive : Option Duration)

def afterTry (t : Try) (o : Outcome) : Next :=
  (p.forKeepAlive keepAliveCheck keepAlive).afterFailure t.attempt (.clamp (t.startsAt + o.took)) o.kind

/-- The `n`-th attempt of a run, from 0, if the run gets to it. -/
def tryAt (o : Nat → Outcome) : Nat → Option Try
  | 0 => some ⟨0, (p.delayBefore 0).nanos + (o 0).late⟩
  | n + 1 => (tryAt o n).bind fun t =>
    match p.afterTry keepAliveCheck keepAlive t (o n) with
    | .retryAfter delay => some ⟨nextAttempt t.attempt, t.startsAt + (o n).took + delay.nanos + (o (n + 1)).late⟩
    | .giveUp _ => none

end

variable {p : ReconnectPolicy} {keepAliveCheck : Duration} {keepAlive : Option Duration} {o : Nat → Outcome} {n : Nat}
  {t t' : Try}

theorem nanos_delayBefore (p : ReconnectPolicy) (a : UInt32) :
    (p.delayBefore a).nanos = min (p.firstDelay.nanos * min (2 ^ a.toNat) (2 ^ 32 - 1)) p.maxDelay.nanos := by
  have hfactor : (factor a).toNat = min (2 ^ a.toNat) (2 ^ 32 - 1) := Doubling.toNat_shift a
  have hmax := p.maxDelay.le_max
  unfold delayBefore Duration.checkedMul
  rw [← hfactor]
  split_ifs with h
  · dsimp only
    unfold Duration.min
    split_ifs with hle
    · exact (Nat.min_eq_left hle).symm
    · exact (Nat.min_eq_right (Nat.le_of_not_le hle)).symm
  · dsimp only
    exact (Nat.min_eq_right (by omega)).symm

theorem delayBefore_forKeepAlive (a : UInt32) : (p.forKeepAlive keepAliveCheck keepAlive).delayBefore a = p.delayBefore a := by
  cases keepAlive with
  | none => rfl
  | some timeout => rfl

theorem delayBefore_mono (p : ReconnectPolicy) {a b : UInt32} (h : a ≤ b) : (p.delayBefore a).nanos ≤ (p.delayBefore b).nanos := by
  have hpow : 2 ^ a.toNat ≤ 2 ^ b.toNat := Nat.pow_le_pow_right (by decide) (UInt32.le_iff_toNat_le.1 h)
  have hmul := Nat.mul_le_mul_left p.firstDelay.nanos (show min (2 ^ a.toNat) (2 ^ 32 - 1) ≤ min (2 ^ b.toNat) (2 ^ 32 - 1) by omega)
  rw [nanos_delayBefore, nanos_delayBefore]
  omega

theorem delayBefore_pos (hfirst : 0 < p.firstDelay.nanos) (hmax : 0 < p.maxDelay.nanos) (a : UInt32) :
    0 < (p.delayBefore a).nanos := by
  have hpow : 0 < min (2 ^ a.toNat) (2 ^ 32 - 1) := Nat.lt_min.2 ⟨Nat.two_pow_pos _, by decide⟩
  have hmul := Nat.mul_pos hfirst hpow
  rw [nanos_delayBefore]
  omega

theorem afterTry_cases (keepAliveCheck : Duration) (keepAlive : Option Duration) (t : Try) (f : Outcome)
    (hk : f.kind ≠ .refused) (hl : ((p.forKeepAlive keepAliveCheck keepAlive).limit f.kind).nanos < Duration.MAX) :
    p.afterTry keepAliveCheck keepAlive t f = .retryAfter (p.delayBefore (nextAttempt t.attempt)) ∧
        t.startsAt + f.took + (p.delayBefore (nextAttempt t.attempt)).nanos ≤
          ((p.forKeepAlive keepAliveCheck keepAlive).limit f.kind).nanos ∨
      p.afterTry keepAliveCheck keepAlive t f = .giveUp .outOfTime ∧
        ((p.forKeepAlive keepAliveCheck keepAlive).limit f.kind).nanos <
          t.startsAt + f.took + (p.delayBefore (nextAttempt t.attempt)).nanos := by
  unfold afterTry afterFailure
  rw [if_neg hk, delayBefore_forKeepAlive]
  generalize p.delayBefore (nextAttempt t.attempt) = delay
  generalize (p.forKeepAlive keepAliveCheck keepAlive).limit f.kind = limit at *
  have hsum : (Duration.saturatingAdd (.clamp (t.startsAt + f.took)) delay).nanos =
      min (min (t.startsAt + f.took) Duration.MAX + delay.nanos) Duration.MAX := rfl
  dsimp only
  generalize Duration.MAX = longest at *
  rw [hsum]
  split_ifs with h
  · exact .inr ⟨rfl, by omega⟩
  · exact .inl ⟨rfl, by omega⟩

theorem afterTry_endless (t : Try) (f : Outcome) (hk : f.kind ≠ .refused)
    (hl : ((p.forKeepAlive keepAliveCheck keepAlive).limit f.kind).nanos = Duration.MAX) :
    p.afterTry keepAliveCheck keepAlive t f = .retryAfter (p.delayBefore (nextAttempt t.attempt)) := by
  unfold afterTry afterFailure
  rw [if_neg hk, delayBefore_forKeepAlive, hl]
  exact if_neg (Nat.not_lt.2 (Duration.le_max _))

theorem tryAt_succ (h : p.tryAt keepAliveCheck keepAlive o n = some t) (hk : (o n).kind ≠ .refused)
    (hl : ((p.forKeepAlive keepAliveCheck keepAlive).limit (o n).kind).nanos < Duration.MAX)
    (h' : p.tryAt keepAliveCheck keepAlive o (n + 1) = some t') :
    t.startsAt + (p.delayBefore (nextAttempt t.attempt)).nanos ≤ t'.startsAt ∧
      t'.startsAt ≤ ((p.forKeepAlive keepAliveCheck keepAlive).limit (o n).kind).nanos + (o (n + 1)).late := by
  rw [tryAt, h, Option.bind_some] at h'
  rcases afterTry_cases keepAliveCheck keepAlive t (o n) hk hl with ⟨hnext, hle⟩ | ⟨hnext, -⟩
  · rw [hnext] at h'
    obtain rfl := Option.some.inj h'
    exact ⟨by dsimp only; omega, by dsimp only; omega⟩
  · rw [hnext] at h'
    cases h'

theorem tryAt_of_none (h : p.tryAt keepAliveCheck keepAlive o n = none) {k : Nat} (hk : n ≤ k) :
    p.tryAt keepAliveCheck keepAlive o k = none := by
  induction hk with
  | refl => exact h
  | step _ ih => rw [tryAt, ih, Option.bind_none]

theorem le_startsAt (hfirst : 0 < p.firstDelay.nanos) (hmax : 0 < p.maxDelay.nanos) (hk : ∀ n, (o n).kind ≠ .refused)
    (hl : ∀ n, ((p.forKeepAlive keepAliveCheck keepAlive).limit (o n).kind).nanos < Duration.MAX) :
    ∀ {n t}, p.tryAt keepAliveCheck keepAlive o n = some t → n ≤ t.startsAt := by
  intro n
  induction n with
  | zero => exact fun _ => Nat.zero_le _
  | succ n ih =>
    intro t' h'
    cases h : p.tryAt keepAliveCheck keepAlive o n with
    | none => rw [tryAt_of_none h (Nat.le_succ n)] at h'; cases h'
    | some t =>
      have hle := (tryAt_succ h (hk n) (hl n) h').1
      have hpos := delayBefore_pos hfirst hmax (nextAttempt t.attempt)
      have := ih h
      omega

/-- **The schedule.** The waits double up to the longest; each attempt starts by the limit of the failure before it,
but for how late its wait was over; and the run ends. -/
theorem schedule_ends (p : ReconnectPolicy) (hfirst : 0 < p.firstDelay.nanos) (hmax : 0 < p.maxDelay.nanos)
    (keepAliveCheck : Duration) (keepAlive : Option Duration) (o : Nat → Outcome) (hk : ∀ n, (o n).kind ≠ .refused)
    (hl : ∀ n, ((p.forKeepAlive keepAliveCheck keepAlive).limit (o n).kind).nanos < Duration.MAX) :
    (∀ a b, a ≤ b → (p.delayBefore a).nanos ≤ (p.delayBefore b).nanos) ∧
    (∀ a, (p.delayBefore a).nanos = min (p.firstDelay.nanos * min (2 ^ a.toNat) (2 ^ 32 - 1)) p.maxDelay.nanos) ∧
    (∀ n t, p.tryAt keepAliveCheck keepAlive o (n + 1) = some t →
      t.startsAt ≤ ((p.forKeepAlive keepAliveCheck keepAlive).limit (o n).kind).nanos + (o (n + 1)).late) ∧
    ∃ n t, p.tryAt keepAliveCheck keepAlive o n = some t ∧
      (∀ k, (p.tryAt keepAliveCheck keepAlive o k).isSome ↔ k ≤ n) ∧
      p.afterTry keepAliveCheck keepAlive t (o n) = .giveUp .outOfTime ∧
      ((p.forKeepAlive keepAliveCheck keepAlive).limit (o n).kind).nanos <
        t.startsAt + (o n).took + (p.delayBefore (nextAttempt t.attempt)).nanos := by
  refine ⟨fun a b => delayBefore_mono p, nanos_delayBefore p, ?_, ?_⟩
  · intro n t' h'
    cases h : p.tryAt keepAliveCheck keepAlive o n with
    | none => rw [tryAt_of_none h (Nat.le_succ n)] at h'; cases h'
    | some t => exact (tryAt_succ h (hk n) (hl n) h').2
  · -- the first attempt that is not made: what would start past every limit is none
    have hends : ∃ n, p.tryAt keepAliveCheck keepAlive o n = none := by
      refine ⟨Duration.MAX + 1, Option.eq_none_iff_forall_not_mem.2 fun t' h' => ?_⟩
      cases h : p.tryAt keepAliveCheck keepAlive o Duration.MAX with
      | none => rw [tryAt_of_none h (Nat.le_succ _)] at h'; cases h'
      | some t =>
        have hlate := le_startsAt hfirst hmax hk hl h
        have hlimit := hl Duration.MAX
        rcases afterTry_cases keepAliveCheck keepAlive t (o Duration.MAX) (hk _) hlimit with ⟨-, hle⟩ | ⟨hnext, -⟩
        · omega
        · rw [tryAt, h, Option.bind_some, hnext] at h'
          cases h'
    classical
    obtain ⟨n, hn⟩ : ∃ n, Nat.find hends = n + 1 := Nat.exists_eq_succ_of_ne_zero fun h => by
      have h0 := Nat.find_spec hends
      rw [h] at h0
      cases h0
    have hnone := Nat.find_spec hends
    rw [hn] at hnone
    have hbefore : ∀ k ≤ n, (p.tryAt keepAliveCheck keepAlive o k).isSome := fun k hk =>
      Option.isSome_iff_ne_none.2 (Nat.find_min hends (by omega))
    obtain ⟨t, ht⟩ := Option.isSome_iff_exists.1 (hbefore n (Nat.le_refl n))
    refine ⟨n, t, ht, fun k => ⟨fun hk => ?_, hbefore k⟩, ?_⟩
    · by_contra hlt
      rw [tryAt_of_none hnone (by omega)] at hk
      cases hk
    · rcases afterTry_cases keepAliveCheck keepAlive t (o n) (hk n) (hl n) with ⟨hnext, -⟩ | hend
      · rw [tryAt, ht, Option.bind_some, hnext] at hnone
        cases hnone
      · exact hend

def noAnswer (_ : Nat) : Outcome := ⟨0, 30 * 10 ^ 9, .transient⟩

theorem schedule_ends_no_answer :
    ∃ n, ∀ k, (tenMinutes.tryAt (.ofSecs 30) none noAnswer k).isSome ↔ k ≤ n :=
  have h := schedule_ends tenMinutes (by decide) (by decide) (.ofSecs 30) none noAnswer (fun _ => nofun)
    fun _ => show (tenMinutes.limit .transient).nanos < _ by decide
  h.2.2.2.imp fun _ ⟨_, _, hk, _⟩ => hk

/-- Half a minute before its ten minutes are up the run gives up, stating ten minutes; and a run whose limit is the
longest duration there is does not. -/
theorem gives_up_short_of_limit :
    (∃ t, tenMinutes.tryAt (.ofSecs 30) none noAnswer 11 = some t ∧
      tenMinutes.afterTry (.ofSecs 30) none t (noAnswer 11) = .giveUp .outOfTime ∧
      t.startsAt + (noAnswer 11).took < (tenMinutes.limit .transient).nanos) ∧
    ∀ n, ({ tenMinutes with giveUpAfter := ⟨Duration.MAX, Nat.le_refl _⟩ }.tryAt (.ofSecs 30) none noAnswer n).isSome := by
  refine ⟨⟨⟨11, 541500000000⟩, by decide +kernel, by decide +kernel, by decide⟩, fun n => ?_⟩
  induction n with
  | zero => rfl
  | succ n ih =>
    obtain ⟨t, ht⟩ := Option.isSome_iff_exists.1 ih
    rw [tryAt, ht, Option.bind_some, afterTry_endless _ _ (show FailureKind.transient ≠ _ by decide) rfl]
    rfl

end ReconnectPolicy

end CitadelAgent.Reconnect
