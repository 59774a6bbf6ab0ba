import CitadelAgent.Lib.Doubling
import CitadelAgent.Supervisor.History
import CitadelAgent.Supervisor.Shell

/-!
# Supervisor: when it wakes

`drive` and `next_wake` state the same conditions twice, at the time of a step and at a time the shell may sleep
to. Between the two an interest or a redial window can only expire, and a backoff that has just been set is
positive.

* `Driven` : what every step leaves behind: nothing is due at the time it was made at;
* `sleeps_to_nextWake` : until `nextWake` a tick commands nothing, and `nextWake` lies ahead;
* `Loop` : the shell's `run` with its `select!` arms gated as the code gates them;
* `listening_iff_heard` : the supervisor is going to hear of a dead link once the core has been given an input,
  and not before; `deaf_without_input` is a run in which it never is.
-/

namespace CitadelAgent.Supervisor

variable {a b now t w : Millis} {c : Core} {entry : Peer}

namespace Millis

theorem le_def : a ≤ b ↔ a.ms.toNat ≤ b.ms.toNat := UInt64.le_iff_toNat_le

theorem lt_def : a < b ↔ a.ms.toNat < b.ms.toNat := UInt64.lt_iff_toNat_lt

theorem not_le : ¬ a ≤ b ↔ b < a := by
  rw [le_def, lt_def]
  omega

theorem toNat_after (m : Millis) (wait : Duration) :
    (m.after wait).ms.toNat = min (m.ms.toNat + wait.clampedMillis.toNat) u64Max := by
  have h : min (m.ms.toNat + wait.clampedMillis.toNat) u64Max < 2 ^ 64 := by
    unfold u64Max
    omega
  simp only [after, saturatingAdd64, UInt64.toNat_ofNat']
  exact Nat.mod_eq_of_lt h

theorem lt_after {m : Millis} (hm : m.ms.toNat < u64Max) {wait : Duration} (hw : 0 < wait.clampedMillis.toNat) :
    m < m.after wait := by
  rw [lt_def, toNat_after]
  omega

end Millis

/-! ## Backoffs -/

theorem Duration.toNat_clampedMillis (d : Duration) : d.clampedMillis.toNat = Min.min d.asMillis u64Max := by
  have h : Min.min d.asMillis u64Max < 2 ^ 64 := by
    unfold u64Max
    omega
  simp only [clampedMillis, UInt64.toNat_ofNat']
  exact Nat.mod_eq_of_lt h

theorem Duration.clampedMillis_pos {d : Duration} (h : 1000000 ≤ d.nanos) : 0 < d.clampedMillis.toNat := by
  rw [toNat_clampedMillis]
  unfold asMillis u64Max
  omega

theorem Duration.clampedMillis_ofMillis (ms : UInt64) : (Duration.ofMillis ms).clampedMillis.toNat = ms.toNat := by
  rw [toNat_clampedMillis]
  have := ms.toNat_lt
  simp only [asMillis, ofMillis, u64Max]
  omega

namespace Rng

theorem toNat_doubling (attempts : UInt32) : (doubling attempts).toNat = min (2 ^ attempts.toNat) (2 ^ 32 - 1) :=
  Doubling.toNat_shift attempts

theorem doubling_pos (attempts : UInt32) : 1 ≤ (doubling attempts).toNat := by
  have hpow : 1 ≤ 2 ^ attempts.toNat := Nat.one_le_two_pow
  rw [toNat_doubling]
  omega

theorem cut_lt {millis : UInt64} {jitterPermille : UInt32} (hj : jitterPermille.toNat ≤ 1000) {span : UInt64}
    (hs : span = UInt64.ofNat (min (millis.toNat * jitterPermille.toNat) u64Max / 1000)) (hne : span ≠ 0)
    (draw : UInt64) : (draw % span).toNat < millis.toNat := by
  have hmul : millis.toNat * jitterPermille.toNat ≤ millis.toNat * 1000 := Nat.mul_le_mul_left _ hj
  have hspan : span.toNat ≤ millis.toNat := by
    rw [hs, UInt64.toNat_ofNat']
    refine (Nat.mod_le _ _).trans ?_
    omega
  have hpos : 0 < span.toNat := by
    rcases Nat.eq_zero_or_pos span.toNat with h | h
    · exact absurd (UInt64.toNat_inj.mp h) hne
    · exact h
  rw [UInt64.toNat_mod]
  exact (Nat.mod_lt _ hpos).trans_le hspan

/-- **A backoff of at least a millisecond waits at least one**, whatever the jitter draws. -/
theorem delay_pos (r : Rng) {backoff : Backoff} (hinitial : 1000000 ≤ backoff.initial.nanos)
    (hmax : 1000000 ≤ backoff.max.nanos) (attempts : UInt32) {jitterPermille : UInt32}
    (hj : jitterPermille.toNat ≤ 1000) : 0 < (r.delay backoff attempts jitterPermille).1.clampedMillis.toNat := by
  have hdoubled : 1000000 ≤ (backoff.initial.saturatingMul (doubling attempts)).nanos := by
    have hmul := Nat.mul_le_mul hinitial (doubling_pos attempts)
    have hle := backoff.initial.le_max
    simp only [Duration.saturatingMul, Duration.maxNanos] at hle ⊢
    omega
  have hcapped : 1000000 ≤ (Duration.min (backoff.initial.saturatingMul (doubling attempts)) backoff.max).nanos := by
    unfold Duration.min
    split
    · exact hmax
    · exact hdoubled
  have hmillis := Duration.clampedMillis_pos hcapped
  unfold delay
  dsimp only
  generalize (Duration.min (backoff.initial.saturatingMul (doubling attempts)) backoff.max).clampedMillis = millis at *
  split
  · rw [Duration.clampedMillis_ofMillis]
    exact hmillis
  · rename_i hne
    have hcut := cut_lt hj rfl hne r.next.1
    rw [Duration.clampedMillis_ofMillis, UInt64.toNat_sub_of_le _ _ (UInt64.le_iff_toNat_le.mpr hcut.le)]
    omega

end Rng

structure SupervisorPolicy.Waits (policy : SupervisorPolicy) : Prop where
  jitter : policy.jitterPermille.toNat ≤ 1000
  initial : 1000000 ≤ policy.upgradeBackoff.initial.nanos
  max : 1000000 ≤ policy.upgradeBackoff.max.nanos

variable {policy : SupervisorPolicy}

namespace Core

/-! ## The earliest of what is due -/

def earlier? (best due : Option Millis) : Option Millis :=
  match best, due with
  | some a, some b => some (if b < a then b else a)
  | some a, none => some a
  | none, due => due

theorem foldl_earlier_mem {dues : List (Option Millis)} {best : Option Millis}
    (h : dues.foldl earlier? best = some w) : best = some w ∨ some w ∈ dues := by
  induction dues generalizing best with
  | nil => exact .inl h
  | cons due dues ih =>
    rcases ih h with h | h
    · cases best with
      | none => exact .inr (by simp [← h, earlier?])
      | some a =>
        cases due with
        | none => exact .inl h
        | some b =>
          simp only [earlier?, Option.some.injEq] at h
          split at h
          · exact .inr (by simp [h])
          · exact .inl (by rw [h])
    · exact .inr (List.mem_cons_of_mem _ h)

theorem foldl_earlier_le {dues : List (Option Millis)} {best : Option Millis}
    (h : best = some b ∨ some b ∈ dues) : ∃ w, dues.foldl earlier? best = some w ∧ w ≤ b := by
  induction dues generalizing best b with
  | nil =>
    obtain rfl | h := h
    · exact ⟨b, rfl, UInt64.le_refl _⟩
    · simp at h
  | cons due dues ih =>
    -- something no later than `b` is carried past this element, or is still ahead
    have hnext : ∃ b', b' ≤ b ∧ (earlier? best due = some b' ∨ some b' ∈ dues) := by
      rcases h with rfl | h
      · cases due with
        | none => exact ⟨b, UInt64.le_refl _, .inl rfl⟩
        | some d =>
          refine ⟨if d < b then d else b, ?_, .inl rfl⟩
          split
          · rename_i hd
            exact Millis.le_def.mpr (Millis.lt_def.mp hd).le
          · exact UInt64.le_refl _
      · rcases List.mem_cons.mp h with rfl | h
        · cases best with
          | none => exact ⟨b, UInt64.le_refl _, .inl rfl⟩
          | some a =>
            refine ⟨if b < a then b else a, ?_, .inl rfl⟩
            split
            · exact UInt64.le_refl _
            · rename_i hb
              rw [Millis.lt_def] at hb
              exact Millis.le_def.mpr (by omega)
        · exact ⟨b, UInt64.le_refl _, .inr h⟩
    obtain ⟨b', hle, hb'⟩ := hnext
    obtain ⟨w, hw, hwb⟩ := ih hb'
    exact ⟨w, hw, Millis.le_def.mpr ((Millis.le_def.mp hwb).trans (Millis.le_def.mp hle))⟩

/-- When the dial to `entry` is next looked at, if it is waiting for a time. -/
def dialWake (c : Core) (entry : Peer) : Option Millis :=
  if c.policy.dialPeers && !entry.connected && !entry.dial.inFlight && entry.wanted c.now c.policy.redialWindow then
    some entry.dial.nextAt
  else none

def upgradeWake (c : Core) (entry : Peer) : Option Millis :=
  if entry.onRelay && entry.inUse c.now then some entry.upgrade.nextAt else none

/-- Everything `nextWake` takes the earliest of. -/
def wakes (c : Core) : List (Option Millis) :=
  (if c.probe.inFlight then none else c.probe.nextAt) ::
    c.peers.toList.flatMap fun (_, entry) => [c.dialWake entry, c.upgradeWake entry]

theorem nextWake_eq (hup : c.link = .up) (hforcing : c.forcing = false) :
    c.nextWake = c.wakes.foldl earlier? none := by
  unfold nextWake
  rw [if_neg (by simp [hup, hforcing])]
  rfl

theorem mem_wakes {due : Option Millis} :
    due ∈ c.wakes ↔ due = (if c.probe.inFlight then none else c.probe.nextAt) ∨
      ∃ (p : Cid) (entry : Peer), c.peers[p]? = some entry ∧ (due = c.dialWake entry ∨ due = c.upgradeWake entry) := by
  simp only [wakes, List.mem_cons, List.mem_flatMap, Prod.exists, Std.ExtTreeMap.mem_toList_iff_getElem?_eq_some,
    List.not_mem_nil, or_false]

theorem nextWake_mem (hup : c.link = .up) (hforcing : c.forcing = false) (h : c.nextWake = some w) : some w ∈ c.wakes := by
  rw [nextWake_eq hup hforcing] at h
  rcases foldl_earlier_mem h with h | h
  · cases h
  · exact h

theorem nextWake_le (hup : c.link = .up) (hforcing : c.forcing = false) (h : some b ∈ c.wakes) : ∃ w, c.nextWake = some w ∧ w ≤ b := by
  rw [nextWake_eq hup hforcing]
  exact foldl_earlier_le (.inr h)

/-! ## What a step leaves behind -/

/-- Nothing is due at the time of the last step: the probe is armed, and out or ahead; no dial is due; and no
upgrade, unless the clock stands at its end. -/
structure Driven (c : Core) : Prop where
  probe : ∃ armed, c.probe.nextAt = some armed ∧ (c.probe.inFlight = true ∨ c.now < armed)
  dial : ∀ (p : Cid) entry, c.peers[p]? = some entry → dialDue c.policy c.now entry = false
  upgrade : c.now.ms.toNat < u64Max → ∀ (p : Cid) entry, c.peers[p]? = some entry → upgradeDue c.now entry = false

theorem dialDue_drivePeer (policy : SupervisorPolicy) (now : Millis) (q : Cid) (entry : Peer) (rng : Rng) :
    dialDue policy now (drivePeer policy now q entry rng).1 = false := by
  rw [drivePeer_entry]
  cases hd : dialDue policy now entry with
  | true => simp [dialDue]
  | false =>
    simp only [Bool.or_false]
    exact hd

theorem upgradeDue_drivePeer (hw : policy.Waits) (hnow : now.ms.toNat < u64Max) (q : Cid) (entry : Peer) (rng : Rng) :
    upgradeDue now (drivePeer policy now q entry rng).1 = false := by
  rw [drivePeer_entry]
  cases hu : upgradeDue now entry with
  | true =>
    have hlt := Millis.lt_after hnow (rng.delay_pos hw.initial hw.max (saturatingSucc32 entry.upgrade.attempts) hw.jitter)
    have hafter : (upgradeAfter policy now entry rng).nextAt = now.after
        (rng.delay policy.upgradeBackoff (saturatingSucc32 entry.upgrade.attempts) policy.jitterPermille).1 := by
      simp [upgradeAfter, hu]
    rw [← hafter] at hlt
    exact Bool.and_eq_false_iff.mpr (.inr (decide_eq_false (Millis.not_le.mpr hlt)))
  | false =>
    have hsame : upgradeAfter policy now entry rng = entry.upgrade := by simp [upgradeAfter, hu]
    rw [hsame]
    exact hu

theorem drive_forPeers (hup : c.link = .up) (hforcing : c.forcing = false) (now : Millis) :
    (c.drive now).1 = ((c.driveProbe now).1.forPeers (drivePeer (c.driveProbe now).1.policy now)).1 := by
  unfold drive
  rw [if_neg (by simp [hup, hforcing])]

theorem drive_probe (hup : c.link = .up) (hforcing : c.forcing = false) (now : Millis) :
    (c.drive now).1.probe = (c.driveProbe now).1.probe := by
  rw [drive_forPeers hup hforcing]
  exact (sameLink_forPeers _ _).probe

theorem drive_driven (hw : c.policy.Waits) (hup : c.link = .up) (hforcing : c.forcing = false) : Driven (c.drive c.now).1 := by
  have hdrive := drive_forPeers hup hforcing c.now
  obtain ⟨hpolicy, -, hnow, -⟩ := c.drive_link c.now
  have hpol : (c.driveProbe c.now).1.policy = c.policy := by
    unfold driveProbe
    dsimp only
    split <;> rfl
  obtain ⟨draws, -, hpeers, -⟩ := (c.driveProbe c.now).1.forPeers_spec (drivePeer (c.driveProbe c.now).1.policy c.now)
  have hentry : ∀ p entry, (c.drive c.now).1.peers[p]? = some entry →
      ∃ before rng, entry = (drivePeer c.policy c.now p before rng).1 := by
    intro p entry h
    rw [hdrive, hpeers p, Option.map_eq_some_iff] at h
    obtain ⟨before, -, hb⟩ := h
    exact ⟨before, draws p, by rw [← hb, hpol]⟩
  refine ⟨?_, fun p entry h => ?_, fun hlt p entry h => ?_⟩
  · rw [drive_probe hup hforcing, hnow]
    unfold driveProbe
    dsimp only
    split
    · exact ⟨_, rfl, .inl rfl⟩
    · rename_i h
      refine ⟨_, rfl, ?_⟩
      cases hf : c.probe.inFlight with
      | true => exact .inl rfl
      | false => exact .inr (Millis.not_le.mp fun hle => h ⟨hf, hle⟩)
  · obtain ⟨before, rng, rfl⟩ := hentry p entry h
    rw [hpolicy, hnow]
    exact dialDue_drivePeer _ _ _ _ _
  · obtain ⟨before, rng, rfl⟩ := hentry p entry h
    rw [hnow] at hlt ⊢
    exact upgradeDue_drivePeer hw hlt p before rng

theorem step_driven (hw : c.policy.Waits) (input : Input) (hup : (c.step input).1.link = .up)
    (hforcing : (c.step input).1.forcing = false) : Driven (c.step input).1 := by
  have hc : c.link ≠ .ended := by
    intro h
    rw [step_of_ended h, h] at hup
    cases hup
  have hpolicy := c.step_policy input
  have hnow := handle_now { c with now := c.timeOf input } input (c.timeOf input)
  rw [step_eq hc] at *
  dsimp only at *
  generalize handle { c with now := c.timeOf input } input (c.timeOf input) = d at *
  obtain ⟨hp, hl, -, -, -, -, hf, -⟩ := d.1.drive_link (c.timeOf input)
  rw [hp] at hpolicy
  rw [hl] at hup
  rw [hf] at hforcing
  have hdnow : d.1.now = c.timeOf input := hnow
  rw [← hdnow]
  exact drive_driven (hpolicy ▸ hw) hup hforcing

/-! ## Sleeping -/

theorem inUse_of_le (h : now ≤ t) (hu : entry.inUse t = true) :
    entry.inUse now = true := by
  simp only [Peer.inUse, Peer.hasInterest, Bool.or_eq_true, decide_eq_true_eq, Option.any_eq_true] at hu ⊢
  rcases hu with hu | ⟨until_, hi, hlt⟩
  · exact .inl hu
  · refine .inr ⟨until_, hi, ?_⟩
    rw [Millis.le_def] at h
    rw [Millis.lt_def] at hlt ⊢
    omega

theorem wanted_of_le {window : Duration} (h : now ≤ t) (hw : entry.wanted t window = true) : entry.wanted now window = true := by
  simp only [Peer.wanted, Bool.or_eq_true, Option.any_eq_true, decide_eq_true_eq] at hw ⊢
  rcases hw with hw | ⟨s, hs, hlt⟩
  · exact .inl (inUse_of_le h hw)
  · refine .inr ⟨s, hs, ?_⟩
    have hle : now.ms.toNat - s.ms.toNat ≤ t.ms.toNat - s.ms.toNat := Nat.sub_le_sub_right (Millis.le_def.mp h) _
    rw [since_lt_iff] at hlt ⊢
    exact (Nat.mul_le_mul_right _ hle).trans_lt hlt

theorem dialDue_of_before (h : c.now ≤ t) (hwake : ∀ b, c.dialWake entry = some b → t < b) : dialDue c.policy t entry = false := by
  by_contra hdue
  rw [Bool.not_eq_false] at hdue
  simp only [dialDue, Bool.and_eq_true, decide_eq_true_eq] at hdue
  obtain ⟨⟨⟨⟨h1, h2⟩, h3⟩, hwanted⟩, hat⟩ := hdue
  have hw : c.dialWake entry = some entry.dial.nextAt := by
    simp only [dialWake, h1, h2, h3, wanted_of_le h hwanted, Bool.and_self, if_true]
  exact absurd hat (Millis.not_le.mpr (hwake _ hw))

theorem upgradeDue_of_before (h : c.now ≤ t) (hwake : ∀ b, c.upgradeWake entry = some b → t < b) : upgradeDue t entry = false := by
  by_contra hdue
  rw [Bool.not_eq_false] at hdue
  simp only [upgradeDue, Bool.and_eq_true, decide_eq_true_eq] at hdue
  obtain ⟨⟨hrelay, huse⟩, hat⟩ := hdue
  have hw : c.upgradeWake entry = some entry.upgrade.nextAt := by
    simp only [upgradeWake, hrelay, inUse_of_le h huse, Bool.and_self, if_true]
  exact absurd hat (Millis.not_le.mpr (hwake _ hw))

theorem settlePeer_due (stable : Duration) (policy : SupervisorPolicy) (now t : Millis) (entry : Peer) :
    dialDue policy t (settlePeer stable now entry) = dialDue policy t entry ∧
      upgradeDue t (settlePeer stable now entry) = upgradeDue t entry := by
  unfold settlePeer
  dsimp only
  split <;> exact ⟨rfl, rfl⟩

theorem drive_quiet
    (hprobe : ∃ armed, c.probe.nextAt = some armed ∧ (c.probe.inFlight = true ∨ t < armed))
    (hpeers : ∀ (p : Cid) entry, c.peers[p]? = some entry →
      dialDue c.policy t entry = false ∧ upgradeDue t entry = false) : (c.drive t).2 = [] := by
  unfold drive
  split
  · rfl
  obtain ⟨armed, harmed, hahead⟩ := hprobe
  have hidle : c.driveProbe t = (c, []) := by
    have hnot : ¬ (c.probe.inFlight = false ∧ armed ≤ t) := by
      rintro ⟨hf, hle⟩
      rcases hahead with h | h
      · simp [hf] at h
      · exact Millis.not_le.mpr h hle
    unfold driveProbe
    simp only [harmed, Option.getD_some, hnot, if_false]
    rw [← harmed]
  obtain ⟨draws, -, -, hcmds⟩ := c.forPeers_spec (drivePeer c.policy t)
  rw [hidle]
  dsimp only
  rw [hcmds, List.nil_append, List.flatMap_eq_nil_iff]
  intro p _
  cases hp : c.peers[p]? with
  | none => rfl
  | some entry =>
    obtain ⟨hd, hu⟩ := hpeers p entry hp
    simp [drivePeer_commands, hd, hu]

theorem step_tick_of_up (hup : c.link = .up) (t : Millis) :
    (c.step (.tick t)).2 = ((({ c with now := t } : Core).settle t).drive t).2 := by
  rw [step_eq (by rw [hup]; decide)]
  rfl

theorem tick_quiet (hup : c.link = .up) (hd : Driven c) (hforcing : c.forcing = false) (h : c.now ≤ t)
    (hwake : ∀ w, c.nextWake = some w → t < w) : (c.step (.tick t)).2 = [] := by
  have hbefore : ∀ b, some b ∈ c.wakes → t < b := by
    intro b hb
    obtain ⟨w, hw, hle⟩ := nextWake_le hup hforcing hb
    have := hwake w hw
    rw [Millis.lt_def] at this ⊢
    rw [Millis.le_def] at hle
    omega
  have hsame := ({ c with now := t } : Core).sameLink_settle t
  obtain ⟨draws, -, hpeers, -⟩ := ({ c with now := t } : Core).forPeers_spec
    fun _ entry rng => (settlePeer c.policy.stableAfter t entry, rng, [])
  rw [step_tick_of_up hup]
  refine drive_quiet ?_ fun p entry hp => ?_
  · obtain ⟨armed, harmed, hahead⟩ := hd.probe
    rw [hsame.probe]
    refine ⟨armed, harmed, ?_⟩
    cases hf : c.probe.inFlight with
    | true => exact .inl rfl
    | false => exact .inr (hbefore armed (mem_wakes.mpr (.inl (by simp [hf, harmed]))))
  · have hp' : c.peers[p]?.map (settlePeer c.policy.stableAfter t) = some entry := (hpeers p).symm.trans hp
    obtain ⟨before, hb, rfl⟩ := Option.map_eq_some_iff.mp hp'
    obtain ⟨h1, h2⟩ := settlePeer_due c.policy.stableAfter c.policy t t before
    rw [hsame.policy, h2]
    refine ⟨h1.trans (dialDue_of_before h fun b hb' => ?_), upgradeDue_of_before h fun b hb' => ?_⟩
    · exact hbefore b (mem_wakes.mpr (.inr ⟨p, before, hb, .inl hb'.symm⟩))
    · exact hbefore b (mem_wakes.mpr (.inr ⟨p, before, hb, .inr hb'.symm⟩))

theorem now_lt_nextWake (hup : c.link = .up) (hforcing : c.forcing = false) (hd : Driven c) (hnow : c.now.ms.toNat < u64Max)
    (h : c.nextWake = some w) : c.now < w := by
  rcases mem_wakes.mp (nextWake_mem hup hforcing h) with hw | ⟨p, entry, hp, hw | hw⟩
  · obtain ⟨armed, harmed, hahead⟩ := hd.probe
    cases hf : c.probe.inFlight with
    | true => simp [hf] at hw
    | false =>
      have hw : w = armed := by simpa [hf, harmed] using hw
      rw [hw]
      rcases hahead with hahead | hahead
      · simp [hf] at hahead
      · exact hahead
  · have hdue := hd.dial p entry hp
    unfold dialWake at hw
    split at hw
    · rename_i hcond
      rw [Option.some.inj hw]
      unfold dialDue at hdue
      rw [hcond, Bool.true_and] at hdue
      exact Millis.not_le.mp (of_decide_eq_false hdue)
    · cases hw
  · have hdue := hd.upgrade hnow p entry hp
    unfold upgradeWake at hw
    split at hw
    · rename_i hcond
      rw [Option.some.inj hw]
      unfold upgradeDue at hdue
      rw [hcond, Bool.true_and] at hdue
      exact Millis.not_le.mp (of_decide_eq_false hdue)
    · cases hw

theorem nextWake_idle (h : c.link ≠ .up ∨ c.forcing = true) : c.nextWake = none := by
  unfold nextWake
  rw [if_pos (by simpa using h)]

theorem tick_idle (h : c.link ≠ .up ∨ c.forcing = true) (t : Millis) : (c.step (.tick t)).2 = [] := by
  by_cases hc : c.link = .ended
  · rw [step_of_ended hc]
  · have hsame := ({ c with now := t } : Core).sameLink_settle t
    rw [step_eq hc]
    change [] ++ ((({ c with now := t } : Core).settle t).drive t).2 = []
    unfold drive
    rw [if_pos (by rw [hsame.link, hsame.forcing]; simpa using h)]
    rfl

/-- **Sleeping to `nextWake` loses nothing and never spins.** In every state a step has left, a tick at any
time before `nextWake` commands nothing; and `nextWake`, if there is one, lies ahead. -/
theorem sleeps_to_nextWake (policy : SupervisorPolicy) (hw : policy.Waits) (cid : Cid) (inputs : List Input)
    (hne : inputs ≠ []) :
    (∀ t, ((new policy cid).run inputs).now ≤ t →
      (∀ w, ((new policy cid).run inputs).nextWake = some w → t < w) →
      (((new policy cid).run inputs).step (.tick t)).2 = []) ∧
    (((new policy cid).run inputs).now.ms.toNat < u64Max →
      ∀ w, ((new policy cid).run inputs).nextWake = some w → ((new policy cid).run inputs).now < w) := by
  obtain ⟨inputs, input, rfl⟩ := (List.eq_nil_or_concat inputs).resolve_left hne
  have hdriven := fun hup hforcing =>
    step_driven (c := (new policy cid).run inputs) ((run_policy _ _).symm ▸ hw) input hup hforcing
  rw [List.concat_eq_append, run_snoc]
  generalize (((new policy cid).run inputs).step input).1 = c at *
  by_cases hidle : c.link ≠ .up ∨ c.forcing = true
  · exact ⟨fun t _ _ => tick_idle hidle t, fun _ w h => by simp [nextWake_idle hidle] at h⟩
  · obtain ⟨hup, hforcing⟩ := not_or.mp hidle
    have hup : c.link = .up := not_not.mp hup
    have hforcing : c.forcing = false := by simpa using hforcing
    have hd := hdriven hup hforcing
    exact ⟨fun t ht hwake => tick_quiet hup hd hforcing ht hwake,
      fun hnow w h => now_lt_nextWake hup hforcing hd hnow h⟩

/-- The agent's own policy, after a peer came up on the relay with something queued. -/
theorem sleeps_to_nextWake_agent :
    agentSupervisor.Waits ∧
    (((new agentSupervisor 1).run [.peerUp ⟨5⟩ 11 .serverRelay, .backlog 11 2]).step (.tick ⟨1000⟩)).2 = [] := by
  have hwaits : agentSupervisor.Waits := ⟨by decide, by decide, by decide⟩
  refine ⟨hwaits, (sleeps_to_nextWake agentSupervisor hwaits 1 [.peerUp ⟨5⟩ 11 .serverRelay, .backlog 11 2]
    (by simp)).1 ⟨1000⟩ (by decide) ?_⟩
  have hwake : ((new agentSupervisor 1).run [.peerUp ⟨5⟩ 11 .serverRelay, .backlog 11 2]).nextWake = some ⟨4786⟩ := by
    decide
  intro w h
  rw [hwake] at h
  rw [← Option.some.inj h]
  decide

end Core

/-! ## The loop -/

/-- What `run` keeps beside the shell: when the backlog is next read, and whether the network watch is open. -/
structure Loop where
  shell : Shell
  nextBacklog : Millis
  networkOpen : Bool

def Shell.Event.isEffect : Shell.Event → Bool
  | .probeReturns _ _ _ | .probeSends _ | .dialReturns _ _ _ | .forceReturns _ _ | .backlogReturns _ => true
  | .signal _ _ | .networkChange _ | .tick _ | .handleDone | .backlogDue => false

variable {l l' : Loop} {answer : Done} {cid : Cid} {s : Shell}

namespace Loop

def new (policy : SupervisorPolicy) (cid : Cid) (now : Millis) : Loop := ⟨Shell.new policy cid, now, true⟩

/-- An arm of the loop's `select!`, or an effect getting on between two turns. -/
inductive Turn
  | signal (signal : Signal) (now : Millis)
  | closed
  | done
  | networkChange (now : Millis)
  | networkEnds
  | tick (now : Millis)
  | backlogDue (now : Millis)
  | effect (event : Shell.Event)

def step (l : Loop) (turn : Turn) : Option Loop :=
  if l.shell.ended then none
  else
    match turn with
    | .signal signal now => some { l with shell := l.shell.step (.signal signal now) }
    | .closed => some { l with shell := { l.shell with ended := true } }
    | .done => if l.shell.done = [] then none else some { l with shell := l.shell.step .handleDone }
    | .networkChange now =>
      if l.networkOpen then some { l with shell := l.shell.step (.networkChange now) } else none
    | .networkEnds => if l.networkOpen then some { l with networkOpen := false } else none
    | .tick now =>
      -- with no `next_wake` this arm is `pending()`
      if l.shell.core.nextWake.any (fun at_ => decide (at_ ≤ now)) then
        some { l with shell := l.shell.step (.tick now) }
      else none
    | .backlogDue now =>
      if l.nextBacklog ≤ now then
        some { l with shell := l.shell.step .backlogDue, nextBacklog := now.after l.shell.policy.backlogPoll }
      else none
    | .effect event => if event.isEffect then some { l with shell := l.shell.step event } else none

def run (l : Loop) (turns : List Turn) : Option Loop := turns.foldlM step l

theorem run_snoc_eq_some {turns : List Turn} {turn : Turn} :
    l.run (turns ++ [turn]) = some l' ↔ ∃ mid, l.run turns = some mid ∧ mid.step turn = some l' := by
  unfold run
  rw [List.foldlM_append, Option.bind_eq_bind, Option.bind_eq_some_iff]
  simp

/-- A link that dies silently is going to be noticed: it is known not to be up or is being ended, a probe is
out, or the loop wakes by itself. -/
def Listening (l : Loop) : Prop :=
  l.shell.core.link ≠ .up ∨ l.shell.core.forcing = true ∨ l.shell.core.probe.inFlight = true ∨
    l.shell.core.nextWake.isSome = true

/-- Whether an answer says something: all do but a backlog read that finds nothing when the last one found
nothing either. -/
def tells (queued : List Cid) : Done → Bool
  | .backlog pending => !(pending.isEmpty && queued.isEmpty)
  | _ => true

def speaks (l : Loop) : Turn → Bool
  | .signal _ _ | .networkChange _ | .tick _ => true
  | .done => l.shell.done.head?.any (tells l.shell.queued)
  | .closed | .networkEnds | .backlogDue _ | .effect _ => false

def Heard (l : Loop) (turns : List Turn) : Prop :=
  ∃ earlier turn later mid, turns = earlier ++ turn :: later ∧ l.run earlier = some mid ∧ mid.speaks turn = true

end Loop

/-! ## Once an input has come -/

namespace Core

def Armed (c : Core) : Prop := c.link = .up → c.forcing = false → c.probe.nextAt.isSome = true

theorem step_armed (c : Core) (input : Input) : Armed (c.step input).1 := by
  intro hup hforcing
  have hc : c.link ≠ .ended := by
    intro h
    rw [step_of_ended h, h] at hup
    cases hup
  rw [step_eq hc] at *
  dsimp only at *
  generalize (handle { c with now := c.timeOf input } input (c.timeOf input)).1 = d at *
  obtain ⟨-, hl, -, -, -, -, hf, -⟩ := d.drive_link (c.timeOf input)
  rw [hl] at hup
  rw [hf] at hforcing
  rw [drive_probe hup hforcing]
  unfold driveProbe
  dsimp only
  split <;> rfl

theorem nextWake_isSome (h : Armed c) (hup : c.link = .up) (hforcing : c.forcing = false)
    (hprobe : c.probe.inFlight = false) : c.nextWake.isSome = true := by
  obtain ⟨armed, harmed⟩ := Option.isSome_iff_exists.mp (h hup hforcing)
  obtain ⟨w, hw, -⟩ := nextWake_le hup hforcing (mem_wakes.mpr (.inl (by simp [hprobe, harmed])) : some armed ∈ c.wakes)
  rw [hw]
  rfl

end Core

namespace Shell

theorem foldl_apply_armed {inputs : List Input} (hne : inputs ≠ []) (s : Shell) :
    (inputs.foldl apply s).core.Armed := by
  obtain ⟨inputs, input, rfl⟩ := (List.eq_nil_or_concat inputs).resolve_left hne
  rw [List.concat_eq_append, List.foldl_append]
  change (apply (inputs.foldl apply s) input).core.Armed
  rw [(apply_frame _ input).1]
  exact Core.step_armed _ _

theorem signal_armed (s : Shell) (signal : Signal) (now : Millis) : (s.signal signal now).core.Armed := by
  have happly : ∀ (s : Shell) input, (s.apply input).core.Armed := fun s input =>
    foldl_apply_armed (List.cons_ne_nil input []) s
  unfold Shell.signal
  cases signal with
  | link state =>
    dsimp only
    split
    · exact happly _ _
    · exact happly _ _
  | _ => exact happly _ _

theorem finished_eq_nil (h : Loop.tells s.queued answer = false) :
    s.finished answer = [] := by
  cases answer with
  | backlog pending =>
    simp only [Loop.tells, Bool.not_eq_false', Bool.and_eq_true, List.isEmpty_iff] at h
    simp [finished, h.1, h.2]
  | _ => simp [Loop.tells] at h

theorem finished_ne_nil (h : Loop.tells s.queued answer = true) :
    s.finished answer ≠ [] := by
  cases answer with
  | backlog pending =>
    intro hnil
    obtain ⟨hp, hq⟩ := List.append_eq_nil_iff.mp hnil
    obtain rfl : pending = [] := List.map_eq_nil_iff.mp hp
    have hq : s.queued = [] := by simpa using hq
    simp [Loop.tells, hq] at h
  | _ => simp [finished]

theorem handleDone_core {rest : List Done} (hd : s.done = answer :: rest) :
    if Loop.tells s.queued answer then s.handleDone.core.Armed else s.handleDone.core = s.core := by
  unfold handleDone
  rw [hd]
  dsimp only
  split
  · rename_i h
    exact foldl_apply_armed (finished_ne_nil h) _
  · rename_i h
    rw [finished_eq_nil (by simpa using h)]
    rfl

theorem step_core_of_silent (s : Shell) {event : Event} (h : event.isEffect = true ∨ event = .backlogDue) :
    (s.step event).core = s.core := by
  unfold Shell.step
  split
  · rfl
  cases event <;> simp only [Event.isEffect, Bool.false_eq_true, reduceCtorEq, or_self, or_false] at h
  all_goals (try rfl)
  all_goals (dsimp only; split <;> rfl)

/-- A shell whose core has been given nothing: it has commanded nothing, so only backlog reads can be out. -/
structure Fresh (policy : SupervisorPolicy) (cid : Cid) (s : Shell) : Prop where
  core : s.core = Core.new policy cid
  queued : s.queued = []
  waiting : s.waiting = []
  sending : s.sending = []
  dialing : s.dialing = []
  forcing : s.forcing = 0
  done : ∀ d ∈ s.done, ∃ pending, d = .backlog pending

theorem fresh_new (policy : SupervisorPolicy) (cid : Cid) : Fresh policy cid (new policy cid) :=
  ⟨rfl, rfl, rfl, rfl, rfl, rfl, fun _ h => by simp [new] at h⟩

theorem Fresh.handleDone (h : Fresh policy cid s)
    (hsilent : s.done.head?.any (Loop.tells s.queued) = false) : Fresh policy cid s.handleDone := by
  unfold Shell.handleDone
  split
  · exact h
  rename_i answer rest hd
  obtain ⟨pending, rfl⟩ := h.done answer (by simp [hd])
  have htells : Loop.tells s.queued (.backlog pending) = false := by simpa [hd] using hsilent
  have hpending : pending = [] := by
    simp only [Loop.tells, Bool.not_eq_false', Bool.and_eq_true, List.isEmpty_iff] at htells
    exact htells.1
  rw [finished_eq_nil htells]
  exact ⟨h.core, by simp [hpending], h.waiting, h.sending, h.dialing, h.forcing,
    fun d hmem => h.done d (by rw [hd]; exact List.mem_cons_of_mem _ hmem)⟩

theorem Fresh.step (h : Fresh policy cid s) {event : Event}
    (he : event.isEffect = true ∨ event = .backlogDue) : Fresh policy cid (s.step event) := by
  unfold Shell.step
  split
  · exact h
  cases event <;> simp only [Event.isEffect, Bool.false_eq_true, reduceCtorEq, or_self, or_false] at he
  · exact ⟨h.core, h.queued, h.waiting, h.sending, h.dialing, h.forcing, h.done⟩
  · simpa [h.waiting] using h
  · simpa [h.sending] using h
  · simpa [h.dialing] using h
  · simpa [h.forcing] using h
  · dsimp only
    split
    · exact h
    · refine ⟨h.core, h.queued, h.waiting, h.sending, h.dialing, h.forcing, fun d hd => ?_⟩
      rcases List.mem_append.mp hd with hd | hd
      · exact h.done d hd
      · obtain ⟨pending, -, rfl⟩ := List.mem_map.mp hd
        exact ⟨pending, rfl⟩

end Shell

namespace Loop

theorem step_fresh (h : l.shell.Fresh policy cid) {turn : Turn}
    (hstep : l.step turn = some l') (hsilent : l.speaks turn = false) : l'.shell.Fresh policy cid := by
  unfold step at hstep
  split at hstep
  · cases hstep
  cases turn with
  | signal signal now => simp [speaks] at hsilent
  | closed =>
    rw [← Option.some.inj hstep]
    exact ⟨h.core, h.queued, h.waiting, h.sending, h.dialing, h.forcing, h.done⟩
  | done =>
    rename_i hrun
    have hdone : l.shell.step .handleDone = l.shell.handleDone := by simp [Shell.step, hrun]
    dsimp only at hstep
    split at hstep
    · cases hstep
    · rw [← Option.some.inj hstep, hdone]
      exact h.handleDone hsilent
  | networkChange now => simp [speaks] at hsilent
  | networkEnds =>
    dsimp only at hstep
    split at hstep
    · rw [← Option.some.inj hstep]
      exact h
    · cases hstep
  | tick now => simp [speaks] at hsilent
  | backlogDue now =>
    dsimp only at hstep
    split at hstep
    · rw [← Option.some.inj hstep]
      exact h.step (.inr rfl)
    · cases hstep
  | effect event =>
    dsimp only at hstep
    split at hstep
    · rename_i he
      rw [← Option.some.inj hstep]
      exact h.step (.inl he)
    · cases hstep

theorem step_core {turn : Turn} (hstep : l.step turn = some l') :
    if l.speaks turn then l'.shell.core.Armed else l'.shell.core = l.shell.core := by
  unfold step at hstep
  split at hstep
  · cases hstep
  rename_i hrun
  have happly : ∀ input, (l.shell.apply input).core.Armed := fun input =>
    Shell.foldl_apply_armed (List.cons_ne_nil input []) l.shell
  cases turn with
  | signal signal now =>
    have hs : l.shell.step (.signal signal now) = l.shell.signal signal now := by simp [Shell.step, hrun]
    rw [← Option.some.inj hstep, hs]
    exact Shell.signal_armed _ _ _
  | closed =>
    rw [← Option.some.inj hstep]
    rfl
  | done =>
    have hs : l.shell.step .handleDone = l.shell.handleDone := by simp [Shell.step, hrun]
    dsimp only at hstep
    split at hstep
    · cases hstep
    · rename_i hne
      obtain ⟨answer, rest, hd⟩ := List.exists_cons_of_ne_nil hne
      rw [← Option.some.inj hstep, hs]
      simpa [speaks, hd] using Shell.handleDone_core hd
  | networkChange now =>
    have hs : l.shell.step (.networkChange now) = l.shell.apply (.networkChanged now) := by simp [Shell.step, hrun]
    dsimp only at hstep
    split at hstep
    · rw [← Option.some.inj hstep, hs]
      exact happly _
    · cases hstep
  | networkEnds =>
    dsimp only at hstep
    split at hstep
    · rw [← Option.some.inj hstep]
      rfl
    · cases hstep
  | tick now =>
    have hs : l.shell.step (.tick now) = l.shell.apply (.tick now) := by simp [Shell.step, hrun]
    dsimp only at hstep
    split at hstep
    · rw [← Option.some.inj hstep, hs]
      exact happly _
    · cases hstep
  | backlogDue now =>
    dsimp only at hstep
    split at hstep
    · rw [← Option.some.inj hstep]
      exact l.shell.step_core_of_silent (.inr rfl)
    · cases hstep
  | effect event =>
    dsimp only at hstep
    split at hstep
    · rename_i he
      rw [← Option.some.inj hstep]
      exact l.shell.step_core_of_silent (.inl he)
    · cases hstep

theorem Heard.snoc {turns : List Turn} (h : Heard l turns) (turn : Turn) : Heard l (turns ++ [turn]) := by
  obtain ⟨earlier, t, later, mid, rfl, hrun, hspeaks⟩ := h
  exact ⟨earlier, t, later ++ [turn], mid, by simp, hrun, hspeaks⟩

theorem run_fresh_or_armed {turns : List Turn} (hrun : (new policy cid now).run turns = some l) :
    (¬ Heard (new policy cid now) turns ∧ l.shell.Fresh policy cid) ∨
      (Heard (new policy cid now) turns ∧ l.shell.core.Armed) := by
  induction turns using List.reverseRecOn generalizing l with
  | nil =>
    obtain rfl : new policy cid now = l := Option.some.inj hrun
    exact .inl ⟨fun ⟨_, _, _, _, h, _⟩ => by simp at h, Shell.fresh_new policy cid⟩
  | append_singleton turns turn ih =>
    obtain ⟨mid, hmid, hstep⟩ := run_snoc_eq_some.mp hrun
    have hcore := step_core hstep
    rcases ih hmid with ⟨hnot, hfresh⟩ | ⟨hheard, harmed⟩
    · cases hs : mid.speaks turn with
      | true =>
        rw [hs] at hcore
        exact .inr ⟨⟨turns, turn, [], mid, rfl, hmid, hs⟩, hcore⟩
      | false =>
        refine .inl ⟨?_, step_fresh hfresh hstep hs⟩
        rintro ⟨earlier, t, later, mid', hsplit, hrun', hspeaks⟩
        rcases Core.snoc_split hsplit with ⟨rfl, rfl, -⟩ | ⟨rest, hrest⟩
        · obtain rfl : mid' = mid := Option.mem_unique hrun' hmid
          simp [hs] at hspeaks
        · exact hnot ⟨earlier, t, rest, mid', hrest, hrun', hspeaks⟩
    · refine .inr ⟨hheard.snoc turn, ?_⟩
      split at hcore
      · exact hcore
      · rw [hcore]
        exact harmed

theorem listening_of_armed (h : l.shell.core.Armed) : Listening l := by
  by_cases hup : l.shell.core.link = .up
  · cases hforcing : l.shell.core.forcing with
    | true => exact .inr (.inl hforcing)
    | false =>
      cases hprobe : l.shell.core.probe.inFlight with
      | true => exact .inr (.inr (.inl hprobe))
      | false => exact .inr (.inr (.inr (Core.nextWake_isSome h hup hforcing hprobe)))
  · exact .inl hup

theorem not_listening_new (policy : SupervisorPolicy) (cid : Cid) :
    (Core.new policy cid).link = .up ∧ (Core.new policy cid).forcing = false ∧
      (Core.new policy cid).probe.inFlight = false ∧ (Core.new policy cid).nextWake = none := by
  refine ⟨rfl, rfl, rfl, Option.eq_none_iff_forall_ne_some.mpr fun w h => ?_⟩
  rcases Core.mem_wakes.mp (Core.nextWake_mem rfl rfl h) with hw | ⟨p, entry, hp, -⟩
  · cases hw
  · simp [Core.new] at hp

/-- **The supervisor listens from its first news on, and not before**: a silently dying link is going to be noticed if
and only if a signal, a network change or an answer that says something has come. -/
theorem listening_iff_heard (policy : SupervisorPolicy) (cid : Cid) (now : Millis) (turns : List Turn) (l : Loop)
    (hrun : (new policy cid now).run turns = some l) : Listening l ↔ Heard (new policy cid now) turns := by
  rcases run_fresh_or_armed hrun with ⟨hnot, hfresh⟩ | ⟨hheard, harmed⟩
  · refine ⟨fun h => ?_, fun h => absurd h hnot⟩
    obtain ⟨h1, h2, h3, h4⟩ := not_listening_new policy cid
    simp [Listening, hfresh.core, h1, h2, h3, h4] at h
  · exact ⟨fun _ => hheard, fun _ => listening_of_armed harmed⟩

theorem listening_networkChange :
    ∃ l, (new agentSupervisor 1 ⟨0⟩).run [.networkChange ⟨5⟩] = some l ∧ Listening l := by
  refine ⟨_, rfl, (listening_iff_heard agentSupervisor 1 ⟨0⟩ [.networkChange ⟨5⟩] _ rfl).mpr ?_⟩
  exact ⟨[], .networkChange ⟨5⟩, [], _, rfl, rfl, rfl⟩

/-- The network watch has ended, the backlog is read and is empty, and no signal comes: the link is up, and
nothing is ever going to probe it. -/
theorem deaf_without_input :
    ∃ l, (new agentSupervisor 1 ⟨0⟩).run
        [.networkEnds, .backlogDue ⟨0⟩, .effect (.backlogReturns (some [])), .done] = some l ∧
      ¬ Listening l := by
  refine ⟨_, rfl, ?_⟩
  unfold Listening
  decide

end Loop

end CitadelAgent.Supervisor
