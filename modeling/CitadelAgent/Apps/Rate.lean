import CitadelAgent.Lib.SortedMap
import CitadelAgent.NetPolicy.Url

/-!
# Requests a minute

`citadel-internal-service/src/kernel/apps/net/rate.rs`: a sliding window for each app of an account. The times are
pruned only when the account asks again, and an app whose window has emptied is forgotten. Times are natural numbers, whose
subtraction is `saturating_sub`; an account that is not in the map has no apps, as `or_default` gives it.

* `window`, `spending`, `Lets` : what the calls that were let through say of the next;
* `Keeps`, `Keeps.after_call` : the limiter holds just that, `Keeps.after` over whole runs;
* `rate_limit_exact` : a call is let through exactly when they say so.
-/

namespace CitadelAgent.Apps
open NetPolicy (MAX_REQUESTS_PER_MINUTE)

def WINDOW_MS : Nat := 60000

def MAX_APPS_PER_ACCOUNT : Nat := 16

/-- The apps of one account, with the times of their requests, oldest first. -/
abbrev Spent := SortedMap String (List Nat)

abbrev RateLimiter := UInt64 → Spent

/-- What asks for a request. -/
structure RateCall where
  cid : UInt64
  appId : String
  now : Nat

namespace RateLimiter

/-- The `retain` of `admit`: times out of the window are dropped, and so are apps without times. -/
def recent (now : Nat) (apps : Spent) : Spent :=
  apps.filterMap fun _ times =>
    let times := times.dropWhile fun t => decide (WINDOW_MS ≤ now - t)
    if times.isEmpty then none else some times

end RateLimiter

def RateLimiter.admit (limiter : RateLimiter) (call : RateCall) : Bool × RateLimiter :=
  let apps := recent call.now (limiter call.cid)
  if (apps.get call.appId).isNone ∧ MAX_APPS_PER_ACCOUNT ≤ apps.entries.length then
    (false, Function.update limiter call.cid apps)
  else
    let times := (apps.get call.appId).getD []
    if MAX_REQUESTS_PER_MINUTE ≤ times.length then (false, Function.update limiter call.cid (apps.insert call.appId times))
    else (true, Function.update limiter call.cid (apps.insert call.appId (times ++ [call.now])))

namespace RateLimiter

/-- `Default`. -/
def empty : RateLimiter := fun _ => SortedMap.empty

def after (limiter : RateLimiter) (calls : List RateCall) : RateLimiter := calls.foldl (fun l call => ( l.admit call).2) limiter

def answers : RateLimiter → List RateCall → List Bool
  | _, [] => []
  | limiter, call :: calls => ( limiter.admit call).1 :: answers ( limiter.admit call).2 calls

def granted : RateLimiter → List RateCall → List RateCall
  | _, [] => []
  | limiter, call :: calls =>
    if ( limiter.admit call).1 then call :: granted ( limiter.admit call).2 calls else granted ( limiter.admit call).2 calls

end RateLimiter

/-! ## The window, declared -/

section Window

variable (granted : List RateCall) (cid : UInt64) (appId : String) (now : Nat)

/-- The times of the app's requests, less than a window before `now`. -/
def window : List Nat :=
  (granted.filter fun c => decide (c.cid = cid ∧ c.appId = appId ∧ now - c.now < WINDOW_MS)).map RateCall.now

/-- The apps of the account with such a request. -/
def spending : Finset String :=
  ((granted.filter fun c => decide (c.cid = cid ∧ now - c.now < WINDOW_MS)).map RateCall.appId).toFinset

end Window

def Lets (granted : List RateCall) (call : RateCall) : Prop :=
  (window granted call.cid call.appId call.now).length < MAX_REQUESTS_PER_MINUTE ∧
    (window granted call.cid call.appId call.now ≠ [] ∨
      ((spending granted call.cid call.now).erase call.appId).card < MAX_APPS_PER_ACCOUNT)

instance (granted : List RateCall) (call : RateCall) : Decidable (Lets granted call) := inferInstanceAs (Decidable (_ ∧ _))

def live (times : List Nat) : Option (List Nat) := if times.isEmpty then none else some times

theorem live_getD (times : List Nat) : (live times).getD [] = times := by
  cases times <;> rfl

theorem live_isNone {times : List Nat} : (live times).isNone = true ↔ times = [] := by
  cases times <;> simp [live]

theorem mem_spending {granted : List RateCall} {cid : UInt64} {now : Nat} {appId : String} :
    appId ∈ spending granted cid now ↔ window granted cid appId now ≠ [] := by
  simp only [spending, window, List.mem_toFinset, List.mem_map, List.mem_filter, decide_eq_true_eq, ne_eq, List.map_eq_nil_iff,
    List.filter_eq_nil_iff, not_forall, not_not]
  constructor
  · rintro ⟨c, ⟨hc, hcid, hrecent⟩, happ⟩
    exact ⟨c, hc, hcid, happ, hrecent⟩
  · rintro ⟨c, hc, hcid, happ, hrecent⟩
    exact ⟨c, ⟨hc, hcid, hrecent⟩, happ⟩

/-! ## What the limiter holds -/

theorem dropWhile_eq_filter {p : Nat → Bool} (hp : ∀ a b, a ≤ b → p b = true → p a = true) :
    ∀ {times : List Nat}, times.Pairwise (· ≤ ·) → times.dropWhile p = times.filter fun t => !p t
  | [], _ => rfl
  | t :: rest, h => by
    obtain ⟨hle, hrest⟩ := List.pairwise_cons.mp h
    by_cases ht : p t = true
    · rw [List.dropWhile_cons_of_pos ht, dropWhile_eq_filter hp hrest, List.filter_cons_of_neg (by simp [ht])]
    · rw [List.dropWhile_cons_of_neg ht, List.filter_eq_self.mpr]
      intro x hx
      simp only [Bool.not_eq_true']
      refine Bool.eq_false_iff.mpr fun hpx => ht ?_
      rcases List.mem_cons.mp hx with rfl | hx
      · exact hpx
      · exact hp t x (hle x hx) hpx

/-- The limiter holds the windows as they were when each account last asked. -/
structure Keeps (granted : List RateCall) (limiter : RateLimiter) (now : Nat) : Prop where
  sorted : granted.Pairwise fun a b => a.now ≤ b.now
  past : ∀ c ∈ granted, c.now ≤ now
  held : ∀ cid, ∃ pruned ≤ now, ∀ appId, (limiter cid).get appId = live (window granted cid appId pruned)

theorem keeps_empty : Keeps [] RateLimiter.empty 0 :=
  ⟨List.Pairwise.nil, fun c hc => absurd hc List.not_mem_nil, fun _ => ⟨0, le_refl 0, fun _ => rfl⟩⟩

section Step

variable {granted : List RateCall} {limiter : RateLimiter} {now : Nat} {call : RateCall}

theorem Keeps.mono (h : Keeps granted limiter now) {later : Nat} (hle : now ≤ later) : Keeps granted limiter later where
  sorted := h.sorted
  past c hc := (h.past c hc).trans hle
  held cid := by
    obtain ⟨pruned, hpruned, hheld⟩ := h.held cid
    exact ⟨pruned, hpruned.trans hle, hheld⟩

theorem dropWhile_window (hsorted : granted.Pairwise fun a b => a.now ≤ b.now) (cid : UInt64) (appId : String)
    {pruned later : Nat} (hle : pruned ≤ later) :
    (window granted cid appId pruned).dropWhile (fun t => decide (WINDOW_MS ≤ later - t)) = window granted cid appId later := by
  have htimes : (window granted cid appId pruned).Pairwise (· ≤ ·) := List.pairwise_map.mpr (hsorted.filter _)
  rw [dropWhile_eq_filter _ htimes]
  · rw [window, window, List.filter_map, List.filter_filter]
    congr 1
    refine List.filter_congr fun c _ => ?_
    simp only [Function.comp_apply]
    rw [Bool.eq_iff_iff]
    simp only [Bool.and_eq_true, Bool.not_eq_true', decide_eq_true_eq, decide_eq_false_iff_not]
    constructor
    · rintro ⟨hnot, hcid, happ, -⟩
      exact ⟨hcid, happ, by omega⟩
    · rintro ⟨hcid, happ, hrecent⟩
      exact ⟨by omega, hcid, happ, by omega⟩
  · intro a b hab
    simp only [decide_eq_true_eq]
    omega

theorem Keeps.recent (h : Keeps granted limiter now) {later : Nat} (hle : now ≤ later) (cid : UInt64) (appId : String) :
    (RateLimiter.recent later (limiter cid)).get appId = live (window granted cid appId later) := by
  obtain ⟨pruned, hpruned, hheld⟩ := h.held cid
  have hdrop := dropWhile_window h.sorted cid appId (hpruned.trans hle)
  rw [RateLimiter.recent, SortedMap.get_filterMap, hheld]
  cases hw : window granted cid appId pruned with
  | nil =>
    rw [hw, List.dropWhile_nil] at hdrop
    rw [← hdrop]
    rfl
  | cons t rest =>
    rw [hw] at hdrop
    show (if _ then none else some _) = _
    rw [hdrop]
    rfl

theorem Keeps.length_recent (h : Keeps granted limiter now) {later : Nat} (hle : now ≤ later) (cid : UInt64) :
    (RateLimiter.recent later (limiter cid)).entries.length = (spending granted cid later).card := by
  have hkeys : (RateLimiter.recent later (limiter cid)).keys.toFinset = spending granted cid later := by
    ext appId
    rw [List.mem_toFinset, SortedMap.mem_keys, h.recent hle, mem_spending]
    cases window granted cid appId later <;> simp [live]
  rw [← hkeys, List.toFinset_card_of_nodup (SortedMap.nodup_keys _), SortedMap.keys, List.length_map]

theorem window_append (granted : List RateCall) (call : RateCall) (cid : UInt64) (appId : String) :
    window (granted ++ [call]) cid appId call.now =
      if cid = call.cid ∧ appId = call.appId then window granted cid appId call.now ++ [call.now]
      else window granted cid appId call.now := by
  have hself : 0 < WINDOW_MS := by decide
  rw [window, List.filter_append, List.map_append, ← window]
  split_ifs with hsame
  · rw [List.filter_cons_of_pos (by simp [hsame, hself])]
    rfl
  · rw [List.filter_cons_of_neg (by
      simp only [decide_eq_true_eq]
      rintro ⟨hcid, happ, -⟩
      exact hsame ⟨hcid.symm, happ.symm⟩)]
    simp

theorem window_other {granted : List RateCall} {call : RateCall} {cid : UInt64} (hcid : cid ≠ call.cid) (appId : String)
    (now : Nat) : window (granted ++ [call]) cid appId now = window granted cid appId now := by
  rw [window, List.filter_append, List.map_append, ← window, List.filter_cons_of_neg (by simp [Ne.symm hcid])]
  simp

theorem Keeps.update (h : Keeps granted limiter now) (hle : now ≤ call.now) {granted' : List RateCall} {apps : Spent}
    (hgranted : granted' = granted ∨ granted' = granted ++ [call])
    (happs : ∀ appId, apps.get appId = live (window granted' call.cid appId call.now)) :
    Keeps granted' (Function.update limiter call.cid apps) call.now := by
  have hpast : ∀ c ∈ granted, c.now ≤ call.now := fun c hc => (h.past c hc).trans hle
  refine ⟨?_, fun c hc => ?_, fun cid => ?_⟩
  · rcases hgranted with rfl | rfl
    · exact h.sorted
    · refine List.pairwise_append.mpr ⟨h.sorted, List.pairwise_singleton _ _, fun a ha b hb => ?_⟩
      rw [List.mem_singleton.mp hb]
      exact hpast a ha
  · rcases hgranted with rfl | rfl
    · exact hpast c hc
    · rcases List.mem_append.mp hc with hc | hc
      · exact hpast c hc
      · rw [List.mem_singleton.mp hc]
  · by_cases hcid : cid = call.cid
    · refine ⟨call.now, le_refl _, fun appId => ?_⟩
      rw [hcid, Function.update_self, happs]
    · obtain ⟨pruned, hpruned, hheld⟩ := h.held cid
      refine ⟨pruned, hpruned.trans hle, fun appId => ?_⟩
      rw [Function.update_of_ne hcid, hheld]
      rcases hgranted with rfl | rfl
      · rfl
      · rw [window_other hcid]

theorem Keeps.admit_cases (h : Keeps granted limiter now) (hle : now ≤ call.now) :
    (¬ Lets granted call ∧ ∃ apps, limiter.admit call = (false, Function.update limiter call.cid apps) ∧
      ∀ appId, apps.get appId = live (window granted call.cid appId call.now)) ∨
    (Lets granted call ∧ ∃ apps, limiter.admit call = (true, Function.update limiter call.cid apps) ∧
      ∀ appId, apps.get appId = live (window (granted ++ [call]) call.cid appId call.now)) := by
  have hget := h.recent hle call.cid
  have hcount := h.length_recent hle call.cid
  unfold RateLimiter.admit
  generalize RateLimiter.recent call.now (limiter call.cid) = apps at hget hcount
  have hspending : window granted call.cid call.appId call.now = [] →
      (spending granted call.cid call.now).erase call.appId = spending granted call.cid call.now := fun hnil =>
    Finset.erase_eq_of_notMem fun hmem => mem_spending.mp hmem hnil
  simp only [hget, live_isNone, live_getD, hcount]
  split_ifs with happ hfull
  · obtain ⟨hnil, hmany⟩ := happ
    refine .inl ⟨fun ⟨_, hlets⟩ => ?_, apps, rfl, hget⟩
    rw [hspending hnil] at hlets
    rcases hlets with hne | hfew
    · exact absurd hnil hne
    · omega
  · refine .inl ⟨fun ⟨hroom, _⟩ => absurd hfull (Nat.not_le.mpr hroom), _, rfl, fun appId => ?_⟩
    rw [SortedMap.get_insert]
    split_ifs with hsame
    · subst hsame
      cases hw : window granted call.cid call.appId call.now with
      | nil =>
        rw [hw] at hfull
        exact absurd hfull (by decide)
      | cons t rest => rfl
    · exact hget appId
  · refine .inr ⟨⟨Nat.not_le.mp hfull, ?_⟩, _, rfl, fun appId => ?_⟩
    · by_cases hnil : window granted call.cid call.appId call.now = []
      · rw [hspending hnil]
        exact .inr (Nat.not_le.mp fun hmany => happ ⟨hnil, hmany⟩)
      · exact .inl hnil
    · rw [SortedMap.get_insert, window_append]
      by_cases hsame : appId = call.appId
      · rw [if_pos hsame, if_pos ⟨rfl, hsame⟩, hsame]
        simp [live]
      · rw [if_neg hsame, if_neg fun hboth => hsame hboth.2]
        exact hget appId

/-- **One call**: it is let through exactly when the window and the account have room, and then it is counted. -/
theorem Keeps.after_call (h : Keeps granted limiter now) (hle : now ≤ call.now) :
    (( limiter.admit call).1 = true ↔ Lets granted call) ∧
      Keeps (if ( limiter.admit call).1 then granted ++ [call] else granted) ( limiter.admit call).2 call.now := by
  rcases h.admit_cases hle with ⟨hlets, apps, hanswer, happs⟩ | ⟨hlets, apps, hanswer, happs⟩
  · rw [hanswer]
    exact ⟨⟨nofun, fun hroom => absurd hroom hlets⟩, h.update hle (.inl rfl) happs⟩
  · rw [hanswer]
    exact ⟨⟨fun _ => hlets, fun _ => rfl⟩, h.update hle (.inr rfl) happs⟩

end Step

/-! ## Whole runs -/

section Runs

open RateLimiter

theorem after_snoc (limiter : RateLimiter) (calls : List RateCall) (call : RateCall) :
    after limiter (calls ++ [call]) = ( RateLimiter.admit (after limiter calls) call).2 := by
  simp [after]

theorem granted_snoc : ∀ (limiter : RateLimiter) (calls : List RateCall) (call : RateCall),
    granted limiter (calls ++ [call]) =
      if ( RateLimiter.admit (after limiter calls) call).1 then granted limiter calls ++ [call] else granted limiter calls
  | _, [], _ => rfl
  | limiter, first :: calls, call => by
    have ih := granted_snoc ( limiter.admit first).2 calls call
    rw [show after limiter (first :: calls) = after ( limiter.admit first).2 calls from rfl]
    rw [List.cons_append, granted, granted, ih]
    split_ifs <;> rfl

theorem Keeps.after {calls : List RateCall} (h : calls.Pairwise fun a b => a.now ≤ b.now) :
    ∃ now, Keeps (granted empty calls) (after empty calls) now ∧
      ∀ call : RateCall, (∀ c ∈ calls, c.now ≤ call.now) → now ≤ call.now := by
  induction calls using List.reverseRecOn with
  | nil => exact ⟨0, keeps_empty, fun _ _ => Nat.zero_le _⟩
  | append_singleton calls call ih =>
    obtain ⟨hcalls, -, hlast⟩ := List.pairwise_append.mp h
    obtain ⟨now, hkeeps, hnow⟩ := ih hcalls
    have hle := hnow call fun c hc => hlast c hc call (List.mem_singleton_self _)
    refine ⟨call.now, ?_, fun later hlater => hlater call (List.mem_append_right _ (List.mem_singleton_self _))⟩
    rw [granted_snoc, after_snoc]
    exact (hkeeps.after_call hle).2

theorem answers_congr : ∀ {calls : List RateCall} {granted : List RateCall} {limiter limiter' : RateLimiter} {now : Nat},
    Keeps granted limiter now → Keeps granted limiter' now → (calls.Pairwise fun a b => a.now ≤ b.now) →
    (∀ c ∈ calls, now ≤ c.now) → answers limiter calls = answers limiter' calls
  | [], _, _, _, _, _, _, _, _ => rfl
  | call :: calls, granted, limiter, limiter', now, h, h', hsorted, hnow => by
    obtain ⟨hle, hsorted⟩ := List.pairwise_cons.mp hsorted
    obtain ⟨hlets, hnext⟩ := h.after_call (hnow call List.mem_cons_self)
    obtain ⟨hlets', hnext'⟩ := h'.after_call (hnow call List.mem_cons_self)
    have hsame : ( limiter.admit call).1 = ( limiter'.admit call).1 := Bool.eq_iff_iff.mpr (hlets.trans hlets'.symm)
    rw [← hsame] at hnext'
    rw [answers, answers, hsame, answers_congr hnext hnext' hsorted hle]

/-- The app's requests that were let through from `start` on, for a window. -/
def inWindow (granted : List RateCall) (cid : UInt64) (appId : String) (start : Nat) : List RateCall :=
  granted.filter fun c => decide (c.cid = cid ∧ c.appId = appId ∧ start ≤ c.now ∧ c.now < start + WINDOW_MS)

theorem length_inWindow_le {calls : List RateCall} (h : calls.Pairwise fun a b => a.now ≤ b.now) (cid : UInt64)
    (appId : String) (start : Nat) : (inWindow (granted empty calls) cid appId start).length ≤ MAX_REQUESTS_PER_MINUTE := by
  induction calls using List.reverseRecOn with
  | nil => exact Nat.zero_le _
  | append_singleton calls call ih =>
    obtain ⟨hcalls, -, hlast⟩ := List.pairwise_append.mp h
    have ih := ih hcalls
    obtain ⟨now, hkeeps, hnow⟩ := Keeps.after hcalls
    obtain ⟨hlets, -⟩ := hkeeps.after_call (hnow call fun c hc => hlast c hc call (List.mem_singleton_self _))
    rw [granted_snoc]
    split_ifs with hadmitted
    · rw [inWindow, List.filter_append, List.length_append, ← inWindow]
      by_cases hin : call.cid = cid ∧ call.appId = appId ∧ start ≤ call.now ∧ call.now < start + WINDOW_MS
      · -- All that is in this window is in the one that ends with the call.
        have hle : (inWindow (granted empty calls) cid appId start).length ≤
            (window (granted empty calls) call.cid call.appId call.now).length := by
          rw [window, List.length_map, inWindow]
          refine (List.monotone_filter_right _ fun c hc => ?_).length_le
          simp only [decide_eq_true_eq] at hc ⊢
          obtain ⟨hcid, happ, hfrom, -⟩ := hc
          exact ⟨hcid.trans hin.1.symm, happ.trans hin.2.1.symm, by omega⟩
        have hroom := (hlets.mp hadmitted).1
        rw [List.filter_cons_of_pos (by simpa using hin), List.filter_nil, List.length_singleton]
        omega
      · rw [List.filter_cons_of_neg (by simpa using hin)]
        simpa using ih
    · exact ih

/-- **The limit is that of the sliding window**, for the apps of an account as for the requests of an app; and a
refused call changes no later answer. -/
theorem rate_limit_exact {calls : List RateCall} (h : calls.Pairwise fun a b => a.now ≤ b.now) :
    (∀ before call rest, calls = before ++ call :: rest →
      (( RateLimiter.admit (after empty before) call).1 = true ↔ Lets (granted empty before) call)) ∧
    (∀ cid appId start, (inWindow (granted empty calls) cid appId start).length ≤ MAX_REQUESTS_PER_MINUTE) ∧
    (∀ before call rest, calls = before ++ call :: rest → ( RateLimiter.admit (after empty before) call).1 = false →
      answers (after empty (before ++ [call])) rest = answers (after empty before) rest) := by
  refine ⟨fun before call rest hcalls => ?_, length_inWindow_le h, fun before call rest hcalls hrefused => ?_⟩
  · rw [hcalls] at h
    obtain ⟨hbefore, -, hlater⟩ := List.pairwise_append.mp h
    obtain ⟨now, hkeeps, hnow⟩ := Keeps.after hbefore
    exact (hkeeps.after_call (hnow call fun c hc => hlater c hc call List.mem_cons_self)).1
  · rw [hcalls] at h
    obtain ⟨hbefore, hrest, hlater⟩ := List.pairwise_append.mp h
    obtain ⟨hle, hrest⟩ := List.pairwise_cons.mp hrest
    obtain ⟨now, hkeeps, hnow⟩ := Keeps.after hbefore
    have hnow := hnow call fun c hc => hlater c hc call List.mem_cons_self
    have hnext := (hkeeps.after_call hnow).2
    rw [hrefused] at hnext
    rw [after_snoc]
    exact answers_congr hnext (hkeeps.mono hnow) hrest hle

/-- The first request of an app, and of another account's. -/
theorem rate_limit_exact_first : ( RateLimiter.admit (after empty [⟨7, "a", 0⟩]) ⟨8, "a", 0⟩).1 = true := by
  have hsorted : ([⟨7, "a", 0⟩, ⟨8, "a", 0⟩] : List RateCall).Pairwise fun a b => a.now ≤ b.now := by decide
  exact ((rate_limit_exact hsorted).1 [⟨7, "a", 0⟩] ⟨8, "a", 0⟩ [] rfl).mpr (by decide)

end Runs

end CitadelAgent.Apps
