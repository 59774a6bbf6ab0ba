import CitadelAgent.Supervisor.Campaign

/-!
# Supervisor: the arithmetic of a backoff

`Rng::delay` (`core/peer.rs`) and the clock it waits on (`types.rs`), operation by operation:

* `Rng.checkedDelay` : `Rng.delay` with every `u64` operation that can panic checked;
* `delay_bounds` : nothing panics, jitter only shortens, and it leaves at least a millisecond of one.
-/

namespace CitadelAgent.Supervisor

/-- `initial` doubled `attempts` times and capped by `max`, in whole milliseconds. The doubling saturates at
`u32::MAX`, the product at `Duration::MAX` and the milliseconds at `u64::MAX`. -/
def Backoff.millis (b : Backoff) (attempts : Nat) : Nat :=
  min (min (min (b.initial.nanos * min (2 ^ attempts) (2 ^ 32 - 1)) Duration.maxNanos) b.max.nanos / 1000000) u64Max

/-- `a % b` of two `u64`s, which panics at zero. -/
def checkedRem64 (a b : UInt64) : Option UInt64 := if b = 0 then none else some (a % b)

/-- `a - b` of two `u64`s, which panics below zero. -/
def checkedSub64 (a b : UInt64) : Option UInt64 := if b ≤ a then some (a - b) else none

variable {a k jitterPermille : UInt32} {millis span : UInt64}

namespace Rng

/-- `Rng::delay` in a build that checks its arithmetic: `none` where an operation panics. -/
def checkedDelay (r : Rng) (backoff : Backoff) (attempts jitterPermille : UInt32) : Option (Duration × Rng) :=
  let doubled := backoff.initial.saturatingMul (doubling attempts)
  let capped := Duration.min doubled backoff.max
  let millis := capped.clampedMillis
  let span := UInt64.ofNat (min (millis.toNat * jitterPermille.toNat) u64Max / 1000)
  let cut := if span = 0 then some (0, r) else (checkedRem64 r.next.1 span).map (·, r.next.2)
  cut.bind fun (cut, r) => (checkedSub64 millis cut).map (Duration.ofMillis ·, r)

theorem toNat_cappedMillis (backoff : Backoff) (attempts : UInt32) :
    (cappedMillis backoff attempts).toNat = backoff.millis attempts.toNat := by
  rw [cappedMillis, Duration.toNat_clampedMillis, Duration.asMillis, Duration.nanos_min]
  dsimp only [Duration.saturatingMul]
  rw [toNat_doubling, Backoff.millis]

theorem cut_bounds (hj : jitterPermille.toNat ≤ 1000)
    (hs : span = UInt64.ofNat (min (millis.toNat * jitterPermille.toNat) u64Max / 1000)) (hne : span ≠ 0) (draw : UInt64) :
    (draw % span).toNat < millis.toNat ∧ (draw % span).toNat < millis.toNat * jitterPermille.toNat / 1000 := by
  refine ⟨cut_lt hj hs hne draw, ?_⟩
  have hspan : span.toNat = _ := hs ▸ toNat_span millis jitterPermille
  have hpos : 0 < span.toNat := Nat.pos_of_ne_zero fun h => hne (UInt64.toNat_inj.1 h)
  have hlt : (draw % span).toNat < span.toNat := by
    rw [UInt64.toNat_mod]
    exact Nat.mod_lt _ hpos
  omega

theorem delay_cases (r : Rng) (backoff : Backoff) (attempts : UInt32) (hj : jitterPermille.toNat ≤ 1000) :
    ∃ ms : UInt64, ∃ r', r.delay backoff attempts jitterPermille = (Duration.ofMillis ms, r') ∧
      r.checkedDelay backoff attempts jitterPermille = some (Duration.ofMillis ms, r') ∧
      (ms = cappedMillis backoff attempts ∨ ∃ cut : Nat, cut < (cappedMillis backoff attempts).toNat ∧
        cut < (cappedMillis backoff attempts).toNat * jitterPermille.toNat / 1000 ∧
        ms.toNat = (cappedMillis backoff attempts).toNat - cut) := by
  unfold delay checkedDelay
  dsimp only
  rw [← cappedMillis]
  generalize cappedMillis backoff attempts = millis
  generalize hs : UInt64.ofNat (min (millis.toNat * jitterPermille.toNat) u64Max / 1000) = span
  by_cases hzero : span = 0
  · have hsub : checkedSub64 millis 0 = some millis := by
      rw [checkedSub64, if_pos (UInt64.le_iff_toNat_le.2 (Nat.zero_le _)), UInt64.sub_zero]
    refine ⟨millis, r, if_pos hzero, ?_, .inl rfl⟩
    rw [if_pos hzero, Option.bind_some]
    dsimp only
    rw [hsub, Option.map_some]
  · obtain ⟨hlt, hshare⟩ := cut_bounds hj hs.symm hzero r.next.1
    have hle : r.next.1 % span ≤ millis := UInt64.le_iff_toNat_le.2 hlt.le
    refine ⟨millis - r.next.1 % span, r.next.2, if_neg hzero, ?_,
      .inr ⟨_, hlt, hshare, UInt64.toNat_sub_of_le _ _ hle⟩⟩
    rw [if_neg hzero, checkedRem64, if_neg hzero, Option.map_some, Option.bind_some]
    dsimp only
    rw [checkedSub64, if_pos hle, Option.map_some]

/-- **A backoff's delay.** No operation of it panics; it is a whole number of milliseconds, what the policy comes to
or less by less than the jitter's share; and what the policy comes to only grows with the attempts. -/
theorem delay_bounds (r : Rng) (backoff : Backoff) (attempts : UInt32) (hj : jitterPermille.toNat ≤ 1000) :
    r.checkedDelay backoff attempts jitterPermille = some (r.delay backoff attempts jitterPermille) ∧
    (∀ k, attempts ≤ k → backoff.millis attempts.toNat ≤ backoff.millis k.toNat) ∧
    ∃ d : Nat, (r.delay backoff attempts jitterPermille).1.nanos = d * 1000000 ∧
      (d = backoff.millis attempts.toNat ∨ d ≤ backoff.millis attempts.toNat ∧
        backoff.millis attempts.toNat < d + backoff.millis attempts.toNat * jitterPermille.toNat / 1000) ∧
      (1 ≤ backoff.millis attempts.toNat → 1 ≤ d) ∧
      ∀ now : Millis, (now.after (r.delay backoff attempts jitterPermille).1).ms.toNat = min (now.ms.toNat + d) u64Max := by
  have hmono : ∀ k, attempts ≤ k → backoff.millis attempts.toNat ≤ backoff.millis k.toNat := by
    intro k h
    have hle := cappedMillis_le backoff h
    rwa [toNat_cappedMillis, toNat_cappedMillis] at hle
  obtain ⟨ms, r', hd, hc, hms⟩ := delay_cases r backoff attempts hj
  have hafter : ∀ now : Millis, (now.after (Duration.ofMillis ms)).ms.toNat = min (now.ms.toNat + ms.toNat) u64Max := by
    intro now
    rw [Millis.toNat_after, Duration.clampedMillis_ofMillis]
  rw [hd, hc]
  refine ⟨rfl, hmono, ms.toNat, rfl, ?_, ?_, hafter⟩
  · rw [← toNat_cappedMillis]
    rcases hms with rfl | ⟨cut, hlt, hshare, hms⟩
    · exact .inl rfl
    · exact .inr (by omega)
  · rw [← toNat_cappedMillis]
    rcases hms with rfl | ⟨cut, hlt, hshare, hms⟩
    · exact id
    · omega

theorem delay_bounds_agent :
    let backoff := agentSupervisor.dialBackoff
    (seeded 7 1).checkedDelay backoff 33 250 = some ((seeded 7 1).delay backoff 33 250) :=
  (delay_bounds (seeded 7 1) agentSupervisor.dialBackoff 33 (by decide)).1

end Rng

end CitadelAgent.Supervisor
