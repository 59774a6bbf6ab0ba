import CitadelAgent.Lib.SortedMap

/-!
# What a session moved through TURN

`telemetry/turn_ledger.rs`: each connection's counters are read when a report is taken and when the connection is
replaced.

* `Session` : the ledger, a session at a time; `splitReport` : a report in parts;
* `World.Reached` : runs over connections whose counters grow;
* `every_byte_once` : what was reported and what is still to be reported are the bytes moved.
-/

namespace CitadelAgent.Telemetry
open Function

/-- Bytes sent and received, in that order. -/
abbrev TurnBytes := Nat × Nat

def u64Max : Nat := 2 ^ 64 - 1

/-- `saturating_add`, per direction. -/
def add (a b : TurnBytes) : TurnBytes := (min (a.1 + b.1) u64Max, min (a.2 + b.2) u64Max)

structure Tracked where
  read : Nat
  reported : TurnBytes

/-- `growth` of counters that show `now`. -/
def growth (now reported : TurnBytes) : TurnBytes := (now.1 - reported.1, now.2 - reported.2)

/-- What the ledger has of one session: its connections, by peer; the growth of replaced ones, nothing where there is no
entry; whether its server meters. -/
structure Session where
  connections : SortedMap Nat Tracked
  carried : TurnBytes
  metered : Bool

namespace Session

def new : Session := ⟨.empty, (0, 0), false⟩

variable (s : Session) (counters : Nat → TurnBytes)

def setMetered (metersTurn : Bool) : Session := { s with metered := metersTurn }

def track (peerCid read : Nat) : Session :=
  { s with
    connections := s.connections.insert peerCid ⟨read, (0, 0)⟩
    carried := match s.connections.get peerCid with
      | some old => add s.carried (growth (counters old.read) old.reported)
      | none => s.carried }

/-- What `take` reports for the session; it is left out where that is nothing. -/
def report : TurnBytes :=
  if s.metered then
    add ((s.connections.entries.map fun e => growth (counters e.2.read) e.2.reported).foldl add (0, 0)) s.carried
  else (0, 0)

/-- What `take` leaves. -/
def taken : Session :=
  if s.metered then ⟨s.connections.mapValues fun t => { t with reported := counters t.read }, (0, 0), true⟩ else s

end Session

/-- `split_report`, of at most so many rounds. -/
def splitReport (max : Nat) : Nat → TurnBytes → Option (List TurnBytes)
  | _, (0, 0) => some []
  | 0, _ => none
  | rounds + 1, left =>
    let part := (min left.1 max, min left.2 max)
    (splitReport max rounds (left.1 - part.1, left.2 - part.2)).map (part :: ·)

/-! ## Runs -/

def dir (sent : Bool) (b : TurnBytes) : Nat := if sent then b.1 else b.2

/-- A session of the ledger, `Session.new` where there is nothing of it, with what `take` returned for it since it was last forgotten, and what its connections since then had
moved when they were replaced. -/
structure Account extends Session where
  returned : TurnBytes
  replaced : TurnBytes

/-- The accounts, and what each connection moved; connections are numbered as they are made. -/
structure World where
  accounts : Nat → Account
  counters : Nat → TurnBytes
  made : Nat

inductive LedgerAct
  | moved (connection : Nat) (more : TurnBytes)
  | track (cid peerCid : Nat)
  | setMetered (cid : Nat) (metersTurn : Bool)
  | forget (cid : Nat)
  | take

namespace Account

def new : Account := ⟨.new, (0, 0), (0, 0)⟩

variable (a : Account) (counters : Nat → TurnBytes)

def track (peerCid read : Nat) : Account where
  toSession := a.toSession.track counters peerCid read
  returned := a.returned
  replaced := match a.connections.get peerCid with
    | some old => a.replaced + counters old.read
    | none => a.replaced

def take : Account := { a with toSession := a.taken counters, returned := a.returned + a.report counters }

def moved (sent : Bool) : Nat := a.connections.total (fun _ t => dir sent (counters t.read)) + dir sent a.replaced

/-- What is still to be reported: the growth of its connections, and what was carried. -/
def unreported (sent : Bool) : Nat :=
  a.connections.total (fun _ t => dir sent (growth (counters t.read) t.reported)) + dir sent a.carried

end Account

namespace World

def new : World := ⟨fun _ => .new, fun _ => (0, 0), 0⟩

def step (w : World) : LedgerAct → World
  | .moved connection more => { w with counters := update w.counters connection (w.counters connection + more) }
  | .track cid peerCid =>
    ⟨update w.accounts cid ((w.accounts cid).track w.counters peerCid w.made), update w.counters w.made (0, 0), w.made + 1⟩
  | .setMetered cid metersTurn =>
    { w with accounts := update w.accounts cid { w.accounts cid with toSession := (w.accounts cid).setMetered metersTurn } }
  | .forget cid => { w with accounts := update w.accounts cid .new }
  | .take => { w with accounts := fun cid => (w.accounts cid).take w.counters }

/-- A run in which no session's total reaches `2 ^ 64`. -/
inductive Reached : World → Prop
  | new : Reached new
  | step {w : World} (act : LedgerAct) (h : Reached w)
      (hbelow : ∀ cid sent, ((w.step act).accounts cid).moved (w.step act).counters sent ≤ u64Max) : Reached (w.step act)

end World

variable {w : World} {account : Account} {counters : Nat → TurnBytes} {made : Nat} {sent : Bool} {a b : TurnBytes}

theorem dir_add : dir sent (add a b) = min (dir sent a + dir sent b) u64Max := by cases sent <;> rfl

theorem dir_plus : dir sent (a + b) = dir sent a + dir sent b := by cases sent <;> rfl

theorem dir_growth : dir sent (growth a b) = dir sent a - dir sent b := by cases sent <;> rfl

theorem dir_zero : dir sent (0, 0) = 0 := by cases sent <;> rfl

theorem dir_foldl (l : List TurnBytes) (h : dir sent a + (l.map (dir sent)).sum ≤ u64Max) :
    dir sent (l.foldl add a) = dir sent a + (l.map (dir sent)).sum := by
  induction l generalizing a with
  | nil => rfl
  | cons b l ih =>
    rw [List.map_cons, List.sum_cons] at *
    have hadd : dir sent (add a b) = dir sent a + dir sent b := by
      rw [dir_add]
      omega
    rw [List.foldl_cons, ih (by omega), hadd, Nat.add_assoc]

namespace Account

/-- What carries an account: no connection was reported past what it moved, and what was returned or is carried is what
was reported of connections, or moved by ones that were replaced. -/
structure Ok (counters : Nat → TurnBytes) (made : Nat) (account : Account) : Prop where
  fresh : ∀ e ∈ account.connections.entries, e.2.read < made
  read : ∀ e ∈ account.connections.entries, ∀ sent, dir sent e.2.reported ≤ dir sent (counters e.2.read)
  once : ∀ sent, dir sent account.returned + dir sent account.carried =
    account.connections.total (fun _ t => dir sent t.reported) + dir sent account.replaced

theorem ok_new : Ok counters made .new := ⟨nofun, nofun, fun sent => by cases sent <;> rfl⟩

theorem Ok.total_growth (h : account.Ok counters made) (sent : Bool) :
    account.connections.total (fun _ t => dir sent (growth (counters t.read) t.reported)) +
      account.connections.total (fun _ t => dir sent t.reported) =
    account.connections.total fun _ t => dir sent (counters t.read) := by
  unfold SortedMap.total
  rw [← List.sum_map_add]
  congr 1
  refine List.map_congr_left fun e he => ?_
  show dir sent (growth _ _) + _ = _
  rw [dir_growth]
  exact Nat.sub_add_cancel (h.read e he sent)

theorem Ok.conserved (h : account.Ok counters made) (sent : Bool) :
    dir sent account.returned + account.unreported counters sent = account.moved counters sent := by
  have hgrowth := h.total_growth sent
  have honce := h.once sent
  unfold unreported moved
  omega

theorem Ok.grow {counters' : Nat → TurnBytes} {made' : Nat} (h : account.Ok counters made) (hmade : made ≤ made')
    (hle : ∀ c < made, ∀ sent, dir sent (counters c) ≤ dir sent (counters' c)) : account.Ok counters' made' where
  fresh e he := (h.fresh e he).trans_le hmade
  read e he sent := (h.read e he sent).trans (hle _ (h.fresh e he) sent)
  once := h.once

theorem Ok.track (h : account.Ok counters made) (hbelow : ∀ sent, account.moved counters sent ≤ u64Max) (peerCid : Nat) :
    (account.track counters peerCid made).Ok (update counters made (0, 0)) (made + 1) := by
  have hentries : ∀ e ∈ (account.track counters peerCid made).connections.entries,
      e.2 = ⟨made, (0, 0)⟩ ∨ e ∈ account.connections.entries := fun e he =>
    (SortedMap.mem_insert.1 he).imp (fun h => by rw [h]) And.left
  refine ⟨fun e he => ?_, fun e he sent => ?_, fun sent => ?_⟩
  · rcases hentries e he with he | he
    · rw [he]
      exact Nat.lt_succ_self _
    · exact (h.fresh e he).trans (Nat.lt_succ_self _)
  · rcases hentries e he with he | he
    · rw [he, dir_zero]
      exact Nat.zero_le _
    · rw [update_of_ne (h.fresh e he).ne]
      exact h.read e he sent
  · have honce := h.once sent
    have hconserved := h.conserved sent
    have hmax := hbelow sent
    have hinsert := account.connections.total_insert (fun _ t => dir sent t.reported) peerCid ⟨made, (0, 0)⟩
    simp only [Account.track, Session.track, dir_zero] at hinsert ⊢
    cases hold : account.connections.get peerCid with
    | none =>
      rw [hold, Option.elim_none] at hinsert
      dsimp only
      omega
    | some old =>
      rw [hold, Option.elim_some] at hinsert
      have hmem := SortedMap.get_eq_some.1 hold
      have hread : dir sent old.reported ≤ dir sent (counters old.read) := h.read _ hmem sent
      have hgrowth : dir sent (growth (counters old.read) old.reported) = _ := dir_growth
      have hle : dir sent (growth (counters old.read) old.reported) ≤
          account.connections.total (fun _ t => dir sent (growth (counters t.read) t.reported)) :=
        List.le_sum_of_mem (List.mem_map.2 ⟨_, hmem, rfl⟩)
      unfold unreported at hconserved
      dsimp only
      rw [dir_add, dir_plus]
      omega

theorem Ok.take (h : account.Ok counters made) (hbelow : ∀ sent, account.moved counters sent ≤ u64Max) :
    (account.take counters).Ok counters made := by
  unfold Account.take Session.taken Session.report
  split_ifs with hm
  · refine ⟨fun e he => ?_, fun e he sent => ?_, fun sent => ?_⟩
    · obtain ⟨e', he', rfl⟩ := List.mem_map.1 he
      exact h.fresh e' he'
    · obtain ⟨e', he', rfl⟩ := List.mem_map.1 he
      exact Nat.le_refl _
    · have hgrowth := h.total_growth sent
      have honce := h.once sent
      have hconserved := h.conserved sent
      have hmax := hbelow sent
      unfold unreported at hconserved
      -- the sum saturates only above what was moved
      have hfold := @dir_foldl sent (0, 0) (account.connections.entries.map fun e => growth (counters e.2.read) e.2.reported)
      rw [dir_zero, List.map_map, Nat.zero_add] at hfold
      change account.connections.total (fun _ t => dir sent (growth (counters t.read) t.reported)) ≤ _ → _ =
        account.connections.total (fun _ t => dir sent (growth (counters t.read) t.reported)) at hfold
      have hnow : (account.connections.mapValues fun t => { t with reported := counters t.read }).total
          (fun _ t => dir sent t.reported) = account.connections.total fun _ t => dir sent (counters t.read) := by
        unfold SortedMap.total SortedMap.mapValues
        rw [List.map_map]
        rfl
      show dir sent (account.returned + add _ _) + dir sent (0, 0) = SortedMap.total _ _ + dir sent account.replaced
      rw [dir_plus, dir_add, hfold (by omega), dir_zero, hnow]
      omega
  · refine ⟨h.fresh, h.read, fun sent => ?_⟩
    rw [dir_plus, dir_zero]
    exact h.once sent

end Account

theorem ok_of_reached (h : w.Reached) : ∀ cid, (w.accounts cid).Ok w.counters w.made ∧
    ∀ sent, (w.accounts cid).moved w.counters sent ≤ u64Max := by
  induction h with
  | new => exact fun cid => ⟨Account.ok_new, fun sent => by cases sent <;> exact Nat.zero_le _⟩
  | @step w act h hbelow ih =>
    refine fun cid => ⟨?_, hbelow cid⟩
    cases act with
    | moved connection more =>
      refine (ih cid).1.grow (Nat.le_refl _) fun c _ sent => ?_
      show _ ≤ dir sent (update w.counters connection _ c)
      by_cases hc : c = connection
      · rw [hc, update_self, dir_plus]
        exact Nat.le_add_right _ _
      · rw [update_of_ne hc]
    | track c peerCid =>
      show (update w.accounts c _ cid).Ok _ _
      by_cases hc : cid = c
      · rw [hc, update_self]
        exact (ih c).1.track (ih c).2 peerCid
      · rw [update_of_ne hc]
        refine (ih cid).1.grow (Nat.le_succ _) fun c hlt sent => ?_
        show _ ≤ dir sent (update w.counters w.made _ c)
        rw [update_of_ne hlt.ne]
    | setMetered c metersTurn =>
      show (update w.accounts c _ cid).Ok _ _
      by_cases hc : cid = c
      · rw [hc, update_self]
        exact ⟨(ih c).1.fresh, (ih c).1.read, (ih c).1.once⟩
      · rw [update_of_ne hc]
        exact (ih cid).1
    | forget c =>
      show (update w.accounts c _ cid).Ok _ _
      by_cases hc : cid = c
      · rw [hc, update_self]
        exact Account.ok_new
      · rw [update_of_ne hc]
        exact (ih cid).1
    | take => exact (ih cid).1.take (ih cid).2

theorem splitReport_spec {max : Nat} (hmax : 1 ≤ max) (rounds : Nat) (left : TurnBytes) (h : left.1 + left.2 ≤ rounds) :
    ∃ parts, splitReport max rounds left = some parts ∧ parts.sum = left ∧ ∀ part ∈ parts, part.1 ≤ max ∧ part.2 ≤ max ∧ part ≠ (0, 0) := by
  induction rounds generalizing left with
  | zero =>
    obtain ⟨sent, received⟩ := left
    obtain ⟨rfl, rfl⟩ : sent = 0 ∧ received = 0 := by simpa using h
    exact ⟨[], rfl, rfl, nofun⟩
  | succ rounds ih =>
    by_cases hzero : left = (0, 0)
    · subst hzero
      exact ⟨[], by rw [splitReport], rfl, nofun⟩
    · have hpos : 0 < left.1 + left.2 := by
        by_contra hnot
        exact hzero (Prod.ext (by dsimp only; omega) (by dsimp only; omega))
      obtain ⟨parts, hparts, hsum, hall⟩ := ih (left.1 - min left.1 max, left.2 - min left.2 max) (by dsimp only; omega)
      refine ⟨(min left.1 max, min left.2 max) :: parts, ?_, ?_, ?_⟩
      · rw [splitReport, hparts, Option.map_some]
        exact fun h1 => hzero h1
      · rw [List.sum_cons, hsum]
        exact Prod.ext (by simp) (by simp)
      · rintro part hpart
        rcases List.mem_cons.1 hpart with rfl | hpart
        · refine ⟨Nat.min_le_right _ _, Nat.min_le_right _ _, fun h0 => ?_⟩
          obtain ⟨h1, h2⟩ := Prod.mk.inj h0
          omega
        · exact hall part hpart

/-- **Every byte is reported once.** What was returned for a session since it was last forgotten and what is still to
be reported are what its connections moved; and a report is split into parts under the cap that make it up. -/
theorem every_byte_once :
    (∀ w : World, w.Reached → ∀ cid sent,
      dir sent (w.accounts cid).returned + (w.accounts cid).unreported w.counters sent =
        (w.accounts cid).moved w.counters sent) ∧
    (∀ (s : Session) (counters : Nat → TurnBytes), s.metered = false → s.report counters = (0, 0) ∧ s.taken counters = s) ∧
    (∀ (w : World) (cid : Nat), ((w.step (.forget cid)).accounts cid).metered = false) ∧
    ∀ (max : Nat) (bytes : TurnBytes), 1 ≤ max → ∀ rounds ≥ bytes.1 + bytes.2, ∃ parts,
      splitReport max rounds bytes = some parts ∧ parts.sum = bytes ∧
        ∀ part ∈ parts, part.1 ≤ max ∧ part.2 ≤ max ∧ part ≠ (0, 0) := by
  refine ⟨fun w h cid => (ok_of_reached h cid).1.conserved, fun s counters hm => ?_, fun w cid => ?_,
    fun max bytes hmax rounds h => splitReport_spec hmax rounds bytes h⟩
  · rw [Session.report, Session.taken, hm]
    exact ⟨rfl, rfl⟩
  · show (update w.accounts cid .new cid).metered = false
    rw [update_self]
    rfl

end CitadelAgent.Telemetry
