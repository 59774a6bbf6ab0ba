import CitadelAgent.WasmClient.Client

/-!
# One current connection

* `Client.Lands`, `Client.Meets` : an attempt installs what the sink is for, in the generation that it captured; and a socket dies
  when its connection is installed and not about to be closed, or was closed;
* `Client.Current` : what the sink and the tasks' generations are then;
* `Client.OneCurrent`, `Client.client_has_one_current` : the sink is the installed connection's, and only its own end is reported;
* `Client.closed_while_connecting` : a `close_connection` during an `init`.
-/

namespace CitadelAgent.WasmClient
open Function Machine

variable {c generation i : Nat}

namespace Client

def NoneCloses (s : Client) : Prop := ∀ i < s.begun, ∀ call ∈ s.calls i, call.sets.isSome = true

instance (s : Client) : Decidable s.NoneCloses := inferInstanceAs (Decidable (∀ i < s.begun, ∀ call ∈ s.calls i, _))

/-- A call that installs is the last to have written the sink, in the generation that is current; no call waits to close, and no task
of a connection in its place is running. -/
def Lands (s : Client) : Call → Prop
  | .installing c generation => s.sink = some c ∧ s.generation = generation ∧ s.NoneCloses ∧
      ∀ w ∈ s.workspace, s.tasks w.connection = some .ended
  | _ => True

instance (s : Client) : ∀ call, Decidable (s.Lands call)
  | .installing c generation => inferInstanceAs (Decidable (s.sink = some c ∧ s.generation = generation ∧ s.NoneCloses ∧
      ∀ w ∈ s.workspace, s.tasks w.connection = some .ended))
  | .closing _ => isTrue trivial
  | .connecting _ _ => isTrue trivial

/-- An attempt installs what the sink is for, as `Lands` says; and a socket dies when no call is setting its connection up, nor waits
to close it. -/
def Meets (s : Client) : Act → Prop
  | .lock i => ∀ call ∈ s.calls i, s.Lands call
  | .socketDies c => (∀ i < s.begun, ∀ call ∈ s.calls i, call.sets ≠ some c) ∧ (s.current = some c → s.NoneCloses)
  | _ => True

instance (s : Client) : ∀ act, Decidable (s.Meets act)
  | .lock i => inferInstanceAs (Decidable (∀ call ∈ s.calls i, s.Lands call))
  | .socketDies c => inferInstanceAs (Decidable ((∀ i < s.begun, ∀ call ∈ s.calls i, call.sets ≠ some c) ∧
      (s.current = some c → s.NoneCloses)))
  | .init => isTrue trivial
  | .restart => isTrue trivial
  | .close => isTrue trivial
  | .connect _ _ => isTrue trivial
  | .shutdown _ => isTrue trivial
  | .arrive _ => isTrue trivial
  | .hangUp _ => isTrue trivial
  | .next _ => isTrue trivial
  | .receive _ => isTrue trivial
  | .giveBack _ _ => isTrue trivial

/-- Where the connection of a running task is: being installed, installed (in this generation, unless it is about to be closed), or
let go. -/
def Stands (s : Client) (c generation : Nat) : Prop :=
  (∃ i, s.calls i = some (.installing c generation)) ∨
  (s.current = some c ∧ (s.NoneCloses → generation = s.generation) ∧ (¬ s.NoneCloses → generation < s.generation)) ∨
  (s.Orphan c ∧ c < s.connections ∧ generation < s.generation)

/-- The sink is the installed connection's, unless that is about to be closed; and the tasks that run in this generation are those
that may report their end. -/
structure Current (s : Client) : Prop where
  sink : ∀ c, s.current = some c → s.NoneCloses → s.sink = some c
  captured : ∀ i c generation, s.calls i = some (.connecting c generation) ∨ s.calls i = some (.installing c generation) →
    generation ≤ s.generation
  tasks : ∀ c generation, s.tasks c = some (.running generation) → s.Stands c generation
  ends : ∀ e ∈ s.ends, e.reported = true ↔ e.installed = true ∧ e.shutDown = false

variable {s t : Client}

/-- The calls, the sink, the tasks and the installed connection are the same. -/
structure Still (s t : Client) : Prop where
  current : t.current = s.current
  sink : t.sink = s.sink
  generation : t.generation = s.generation
  connections : t.connections = s.connections
  calls : t.calls = s.calls
  begun : t.begun = s.begun
  tasks : t.tasks = s.tasks
  ends : t.ends = s.ends

theorem Still.refl (s : Client) : Still s s := ⟨rfl, rfl, rfl, rfl, rfl, rfl, rfl, rfl⟩

theorem Still.trans {u : Client} (h : Still s t) (h' : Still t u) : Still s u :=
  ⟨h'.current.trans h.current, h'.sink.trans h.sink, h'.generation.trans h.generation, h'.connections.trans h.connections,
    h'.calls.trans h.calls, h'.begun.trans h.begun, h'.tasks.trans h.tasks, h'.ends.trans h.ends⟩

theorem Current.still (h : s.Current) (hs : Still s t) : t.Current where
  sink := by
    unfold NoneCloses
    rw [hs.current, hs.sink, hs.calls, hs.begun]
    exact h.sink
  captured := by
    rw [hs.calls, hs.generation]
    exact h.captured
  tasks := by
    unfold Stands Orphan NoneCloses
    rw [hs.calls, hs.generation, hs.current, hs.begun, hs.connections, hs.tasks]
    exact h.tasks
  ends := hs.ends ▸ h.ends

theorem still_answer (s : Client) (m : Msg) (ok : Bool) : Still s (s.answer m ok) := by
  unfold answer
  split_ifs
  · exact ⟨rfl, rfl, rfl, rfl, rfl, rfl, rfl, rfl⟩
  · exact .refl s

theorem still_restore (s : Client) (r : Nat) : Still s (s.restoreMessageStream r) := by
  unfold restoreMessageStream
  split
  · exact ⟨rfl, rfl, rfl, rfl, rfl, rfl, rfl, rfl⟩
  · rename_i w hw
    have hcurrent : s.current = some w.connection := by rw [current, hw, Option.map_some]
    split
    · exact ⟨hcurrent.symm, rfl, rfl, rfl, rfl, rfl, rfl, rfl⟩
    · exact ⟨hcurrent.symm, rfl, rfl, rfl, rfl, rfl, rfl, rfl⟩

def Act.OfMessages : Act → Prop
  | .arrive _ => True
  | .hangUp _ => True
  | .next _ => True
  | .receive _ => True
  | .giveBack _ _ => True
  | _ => False

theorem still_step {act : Act} (h : Act.OfMessages act) : Still s (s.step act) := by
  cases act with
  | arrive c => exact ⟨rfl, rfl, rfl, rfl, rfl, rfl, rfl, rfl⟩
  | hangUp c => exact ⟨rfl, rfl, rfl, rfl, rfl, rfl, rfl, rfl⟩
  | next ok =>
    show Still s (s.nextMessage ok)
    unfold nextMessage
    split
    · exact .refl s
    · rename_i w hw
      have hcurrent : s.current = some w.connection := by rw [current, hw, Option.map_some]
      split
      · rename_i pending _
        have hpop : Still s { s with workspace := some { w with pending := pending } } :=
          ⟨hcurrent.symm, rfl, rfl, rfl, rfl, rfl, rfl, rfl⟩
        exact hpop.trans (still_answer ..)
      · split
        · exact ⟨hcurrent.symm, rfl, rfl, rfl, rfl, rfl, rfl, rfl⟩
        · exact .refl s
  | receive i =>
    simp only [step]
    split
    · split
      · exact ⟨rfl, rfl, rfl, rfl, rfl, rfl, rfl, rfl⟩
      · split_ifs
        · exact ⟨rfl, rfl, rfl, rfl, rfl, rfl, rfl, rfl⟩
        · exact .refl s
    · exact .refl s
  | giveBack i ok =>
    have hreader : Still s (s.setReader i none) := ⟨rfl, rfl, rfl, rfl, rfl, rfl, rfl, rfl⟩
    simp only [step]
    split
    · exact (hreader.trans (still_restore ..)).trans (still_answer ..)
    · exact hreader.trans (still_restore ..)
    · exact .refl s
  | _ => exact h.elim

/-! ## Calls -/

theorem noneCloses_setCall (call' : Option Call) (hwas : ∀ call ∈ s.calls i, call.sets.isSome = true)
    (hnow : ∀ call ∈ call', call.sets.isSome = true) : (s.setCall i call').NoneCloses ↔ s.NoneCloses := by
  constructor
  · intro h j hj call hcall
    by_cases hsame : j = i
    · exact hwas call (hsame ▸ hcall)
    · exact h j hj call ((update_of_ne hsame ..).trans hcall)
  · intro h j hj call hcall
    replace hcall : update s.calls i call' j = some call := hcall
    rcases of_update hcall with ⟨-, hcall⟩ | ⟨-, hcall⟩
    · exact hnow call hcall
    · exact h j hj call hcall

theorem Current.endCall (h : s.Current) (hnot : ∀ c generation, s.calls i ≠ some (.installing c generation))
    (hclose : s.current = none ∨ ∀ call ∈ s.calls i, call.sets.isSome = true) : (s.setCall i none).Current where
  sink c hc hnone := by
    rcases hclose with hempty | hwas
    · rw [show (s.setCall i none).current = s.current from rfl, hempty] at hc
      exact nomatch hc
    · exact h.sink c hc ((noneCloses_setCall none hwas (by simp)).mp hnone)
  captured j c generation hj :=
    h.captured j c generation (hj.imp (fun hj => (of_update_none hj).2) fun hj => (of_update_none hj).2)
  tasks c generation hc := by
    rcases h.tasks c generation hc with ⟨j, hj⟩ | ⟨hcur, hnone, hsome⟩ | ⟨⟨hcur, horphan⟩, hlt⟩
    · have hne : j ≠ i := fun hsame => hnot c generation (hsame ▸ hj)
      exact .inl ⟨j, (update_of_ne hne ..).trans hj⟩
    · have hwas := hclose.resolve_left (by rw [hcur]; exact nofun)
      have hiff := noneCloses_setCall none hwas (by simp)
      exact .inr (.inl ⟨hcur, fun hn => hnone (hiff.mp hn), fun hn => hsome fun hold => hn (hiff.mpr hold)⟩)
    · exact .inr (.inr ⟨⟨hcur, fun j hj call hcall => horphan j hj call (of_update_none hcall).2⟩, hlt⟩)
  ends := h.ends

theorem Current.connectFrom (h : s.Current) (hnone : s.current = none)
    (hnot : ∀ c generation, s.calls i ≠ some (.installing c generation)) : (s.connectFrom i).Current where
  sink c hc _ := by
    rw [show (s.connectFrom i).current = s.current from rfl, hnone] at hc
    exact nomatch hc
  captured j c generation hj := by
    by_cases hsame : j = i
    · have hcall : (s.connectFrom i).calls j = some (.connecting s.connections s.generation) := by
        rw [hsame]
        exact update_self ..
      rw [hcall] at hj
      rcases hj with hj | hj
      · injection hj with hj
        injection hj with _ hgeneration
        exact hgeneration.ge
      · exact nomatch hj
    · exact h.captured j c generation
        (hj.imp (fun hj => (update_of_ne hsame ..).symm.trans hj) fun hj => (update_of_ne hsame ..).symm.trans hj)
  tasks c generation hc := by
    rcases h.tasks c generation hc with ⟨j, hj⟩ | ⟨hcur, -⟩ | ⟨⟨hcur, horphan⟩, hlt, hgeneration⟩
    · have hne : j ≠ i := fun hsame => hnot c generation (hsame ▸ hj)
      exact .inl ⟨j, (update_of_ne hne ..).trans hj⟩
    · rw [hnone] at hcur
      exact nomatch hcur
    · refine .inr (.inr ⟨⟨hcur, fun j hj call hcall => ?_⟩, Nat.lt_succ_of_lt hlt, hgeneration⟩)
      replace hcall : update s.calls i (some (.connecting s.connections s.generation)) j = some call := hcall
      rcases of_update_some hcall with ⟨-, rfl⟩ | ⟨-, hcall⟩
      · exact fun heq => hlt.ne (Option.some.inj heq).symm
      · exact horphan j hj call hcall
  ends := h.ends

theorem Current.closeFrom (h : s.Current) (hi : i < s.begun) (hnew : s.calls i = none) (restart : Bool) :
    (s.closeFrom i restart).Current := by
  have hcalls : ∀ j call, s.calls j = some call → update s.calls i (some (.closing restart)) j = some call := by
    intro j call hj
    have hne : j ≠ i := by
      rintro rfl
      rw [hnew] at hj
      exact nomatch hj
    rw [update_of_ne hne, hj]
  have hback : ∀ j call, update s.calls i (some (.closing restart)) j = some call → call.sets ≠ none → s.calls j = some call := by
    intro j call hj hsets
    by_cases hsame : j = i
    · rw [hsame, update_self] at hj
      obtain rfl := Option.some.inj hj
      exact (hsets rfl).elim
    · rwa [update_of_ne hsame] at hj
  have hcloses : ¬ (s.closeFrom i restart).NoneCloses := fun hnone => nomatch hnone i hi (.closing restart) (update_self ..)
  refine ⟨fun c hc hnone => (hcloses hnone).elim, fun j c generation hj => ?_, fun c generation hc => ?_, h.ends⟩
  · refine Nat.le_succ_of_le (h.captured j c generation ?_)
    exact hj.imp (fun hj => hback j _ hj nofun) fun hj => hback j _ hj nofun
  · rcases h.tasks c generation hc with ⟨j, hj⟩ | ⟨hcur, hnone, hsome⟩ | ⟨⟨hcur, horphan⟩, hlt, hgeneration⟩
    · exact .inl ⟨j, hcalls j _ hj⟩
    · refine .inr (.inl ⟨hcur, fun hn => (hcloses hn).elim, fun _ => ?_⟩)
      show generation < s.generation + 1
      by_cases hn : s.NoneCloses
      · have heq := hnone hn
        omega
      · have hlt := hsome hn
        omega
    · refine .inr (.inr ⟨⟨hcur, fun j hj call hcall heq => ?_⟩, hlt, Nat.lt_succ_of_lt hgeneration⟩)
      exact horphan j hj call (hback j call hcall (by rw [heq]; exact nofun)) heq

theorem Current.drop (hn : s.Numbered) (h : s.Current) {restart : Bool} (hi : s.calls i = some (.closing restart))
    (discarded : List Msg) : ({ s with workspace := none, discarded := discarded } : Client).Current := by
  have hcloses : ¬ s.NoneCloses := fun hnone => nomatch hnone i (hn.begun i _ hi) _ hi
  refine ⟨nofun, h.captured, fun c generation hc => ?_, h.ends⟩
  rcases h.tasks c generation hc with hinstalling | ⟨hcur, -, hsome⟩ | ⟨⟨-, horphan⟩, hlt⟩
  · exact .inl hinstalling
  · obtain ⟨w, hw, rfl⟩ := Option.map_eq_some_iff.mp hcur
    have hin := (hn.workspace w hw).1
    refine .inr (.inr ⟨⟨nofun, fun j hj call hcall heq => ?_⟩, hn.installed _ hin, hsome hcloses⟩)
    exact (hn.made j call _ hcall heq).2 hin
  · exact .inr (.inr ⟨⟨nofun, horphan⟩, hlt⟩)

theorem Current.install (hn : s.Numbered) (h : s.Current) (hi : s.calls i = some (.installing c generation))
    (hlands : s.Lands (.installing c generation)) : (s.installLocked i c).Current := by
  obtain ⟨hsink, hgeneration, hnone, hended⟩ := hlands
  have hcloses : (s.installLocked i c).NoneCloses := fun j hj call hcall => hnone j hj call (of_update_none hcall).2
  refine ⟨fun c' hc _ => ?_, fun j c' g hj => ?_, fun c' g hc => ?_, h.ends⟩
  · obtain rfl := Option.some.inj hc
    exact hsink
  · exact h.captured j c' g (hj.imp (fun hj => (of_update_none hj).2) fun hj => (of_update_none hj).2)
  · by_cases hmine : c' = c
    · subst hmine
      refine .inr (.inl ⟨rfl, fun _ => ?_, fun hn => (hn hcloses).elim⟩)
      rcases h.tasks c' g hc with ⟨j, hj⟩ | ⟨hcur, -⟩ | ⟨⟨-, horphan⟩, -⟩
      · obtain rfl := hn.apart j i _ _ c' hj hi rfl rfl
        obtain ⟨-, rfl⟩ := (Call.installing.injEq ..).mp (Option.mem_unique hj hi)
        exact hgeneration.symm
      · obtain ⟨w, hw, rfl⟩ := Option.map_eq_some_iff.mp hcur
        exact ((hn.made i _ _ hi rfl).2 (hn.workspace w hw).1).elim
      · exact (horphan i (hn.begun i _ hi) _ hi rfl).elim
    · rcases h.tasks c' g hc with ⟨j, hj⟩ | ⟨hcur, -⟩ | ⟨⟨hcur, horphan⟩, hlt⟩
      · have hne : j ≠ i := by
          rintro rfl
          exact hmine ((Call.installing.injEq ..).mp (Option.mem_unique hj hi)).1
        exact .inl ⟨j, (update_of_ne hne ..).trans hj⟩
      · obtain ⟨w, hw, rfl⟩ := Option.map_eq_some_iff.mp hcur
        have hrunning : s.tasks w.connection = some (.running g) := hc
        rw [hended w hw] at hrunning
        exact nomatch hrunning
      · refine .inr (.inr ⟨⟨fun heq => hmine (Option.some.inj heq).symm, fun j hj call hcall => ?_⟩, hlt⟩)
        exact horphan j hj call (of_update_none hcall).2

theorem Current.spawn (h : s.Current) (hi : s.calls i = some (.connecting c generation)) :
    ({ s.setCall i (some (.installing c generation)) with
      tasks := update s.tasks c (some (.running generation)) } : Client).Current := by
  have hsets : ∀ call ∈ s.calls i, call.sets.isSome = true := by
    intro call hin
    obtain rfl := Option.mem_unique hi hin
    rfl
  have hiff := noneCloses_setCall (some (.installing c generation)) hsets (by simp [Call.sets])
  refine ⟨fun c' hc hn => h.sink c' hc (hiff.mp hn), fun j c' g hj => ?_, fun c' g hc => ?_, h.ends⟩
  · rcases hj with hj | hj
    · rcases of_update_some hj with ⟨-, heq⟩ | ⟨-, hold⟩
      · exact nomatch heq
      · exact h.captured j c' g (.inl hold)
    · rcases of_update_some hj with ⟨-, heq⟩ | ⟨-, hold⟩
      · obtain ⟨rfl, rfl⟩ := (Call.installing.injEq ..).mp heq
        exact h.captured i c generation (.inl hi)
      · exact h.captured j c' g (.inr hold)
  · replace hc : update s.tasks c (some (.running generation)) c' = some (.running g) := hc
    rcases of_update hc with ⟨hmine, hc⟩ | ⟨-, hc⟩
    · obtain rfl := (TaskState.running.injEq ..).mp (Option.some.inj hc)
      subst hmine
      exact .inl ⟨i, update_self ..⟩
    · rcases h.tasks c' g hc with ⟨j, hj⟩ | ⟨hcur, hnone, hsome⟩ | ⟨⟨hcur, horphan⟩, hlt⟩
      · have hne : j ≠ i := by
          rintro rfl
          exact nomatch hi.symm.trans hj
        exact .inl ⟨j, (update_of_ne hne ..).trans hj⟩
      · exact .inr (.inl ⟨hcur, fun hn => hnone (hiff.mp hn), fun hn => hsome fun hold => hn (hiff.mpr hold)⟩)
      · refine .inr (.inr ⟨⟨hcur, fun j hj call hin => ?_⟩, hlt⟩)
        rcases of_update_some hin with ⟨rfl, rfl⟩ | ⟨-, hold⟩
        · exact horphan j hj (.connecting c generation) hi
        · exact horphan j hj call hold

theorem Current.endTask (h : s.Current) {shutDown : Bool}
    (hreport : generation = s.generation ↔ s.current = some c ∧ shutDown = false) : (s.endTask c generation shutDown).Current := by
  refine ⟨h.sink, h.captured, fun c' g hc => ?_, ?_⟩
  · replace hc : update s.tasks c (some .ended) c' = some (.running g) := hc
    rcases of_update hc with ⟨-, hended⟩ | ⟨-, hc⟩
    · exact nomatch hended
    · exact h.tasks c' g hc
  · rintro e (_ | ⟨_, hold⟩)
    · simpa [shouldReportDeath] using hreport
    · exact h.ends e hold

theorem Current.begin_ (hn : s.Numbered) (h : s.Current) : ({ s with begun := s.begun + 1 } : Client).Current := by
  have hnone : ({ s with begun := s.begun + 1 } : Client).NoneCloses ↔ s.NoneCloses := by
    refine ⟨fun h i hi => h i (Nat.lt_succ_of_lt hi), fun h i hi call hcall => ?_⟩
    exact h i (hn.begun i call hcall) call hcall
  refine ⟨fun c hc hn' => h.sink c hc (hnone.mp hn'), h.captured, fun c generation hc => ?_, h.ends⟩
  rcases h.tasks c generation hc with hinstalling | ⟨hcur, hthis, hlast⟩ | ⟨⟨hcur, horphan⟩, hlt⟩
  · exact .inl hinstalling
  · exact .inr (.inl ⟨hcur, fun hn' => hthis (hnone.mp hn'), fun hn' => hlast fun hold => hn' (hnone.mpr hold)⟩)
  · exact .inr (.inr ⟨⟨hcur, fun i hi call hcall => horphan i (hn.begun i call hcall) call hcall⟩, hlt⟩)

theorem current_init (hn : s.Numbered) (h : s.Current) (restart : Bool) : (s.initInner restart).Current := by
  have hfree : s.calls s.begun = none := hn.calls_none le_rfl
  have hbegin := h.begin_ hn
  unfold initInner
  dsimp only
  split_ifs with hrefuse hteardown
  · exact hbegin
  · exact hbegin.closeFrom (Nat.lt_succ_self _) hfree true
  · have hnone : s.current = none := by
      unfold current
      cases hw : s.workspace with
      | none => rfl
      | some w =>
        cases restart <;> simp [refuseInit, teardownBeforeConnect, isInitialized, hw] at hrefuse hteardown
    refine hbegin.connectFrom hnone fun c generation hi => ?_
    rw [hfree] at hi
    exact nomatch hi

theorem current_lock (hn : s.Numbered) (h : s.Current) (hmeets : s.Meets (.lock i)) : (s.step (.lock i)).Current := by
  simp only [step]
  split
  · rename_i restart hi
    have hnot : ∀ c generation, s.calls i ≠ some (.installing c generation) := by
      intro c generation heq
      cases hi.symm.trans heq
    unfold closeLocked
    split
    · rename_i w hw
      have hdrop := h.drop hn hi (s.discarded ++ w.pending)
      dsimp only
      split_ifs
      · exact hdrop.connectFrom rfl hnot
      · exact hdrop.endCall hnot (.inl rfl)
    · rename_i hw
      exact h.endCall hnot (.inl (by rw [current, hw]; rfl))
  · rename_i c generation hi
    exact h.install hn hi (hmeets _ hi)
  · exact h

theorem current_step (hn : s.Numbered) (h : s.Current) (act : Act) (hmeets : s.Meets act) : (s.step act).Current := by
  cases act with
  | init => exact current_init hn h false
  | restart => exact current_init hn h true
  | close => exact (h.begin_ hn).closeFrom (Nat.lt_succ_self _) (hn.calls_none le_rfl) false
  | lock i => exact current_lock hn h hmeets
  | connect i ok =>
    simp only [step]
    split
    · rename_i c generation hi
      split_ifs
      · exact h.spawn hi
      · refine h.endCall (fun c' g heq => by cases hi.symm.trans heq) (.inr fun call hcall => ?_)
        obtain rfl := Option.mem_unique hi hcall
        rfl
    · exact h
  | socketDies c =>
    simp only [step]
    split
    · rename_i generation hc
      obtain ⟨hsets, hcloses⟩ := hmeets
      refine h.endTask ?_
      rcases h.tasks c generation hc with ⟨i, hi⟩ | ⟨hcur, hthis, -⟩ | ⟨⟨hcur, -⟩, -, hlt⟩
      · exact (hsets i (hn.begun i _ hi) _ hi rfl).elim
      · exact ⟨fun _ => ⟨hcur, rfl⟩, fun _ => hthis (hcloses hcur)⟩
      · exact ⟨fun heq => absurd heq hlt.ne, fun hinstalled => absurd hinstalled.1 hcur⟩
    · exact h
  | shutdown c =>
    simp only [step]
    split
    · rename_i generation hc
      split_ifs with horphan
      · refine h.endTask ⟨fun heq => ?_, fun hnot => by cases hnot.2⟩
        rcases h.tasks c generation hc with ⟨i, hi⟩ | ⟨hcur, -⟩ | ⟨-, -, hlt⟩
        · exact (horphan.2 i (hn.begun i _ hi) _ hi rfl).elim
        · exact (horphan.1 hcur).elim
        · exact absurd heq hlt.ne
      · exact h
    · exact h
  | _ => exact h.still (still_step trivial)

/-! ## One connection -/

/-- The acts of a `restart` whose connect succeeds, with nothing between them. -/
def retry (i : Nat) : List Act := [.restart, .lock i, .connect i true, .lock i]

/-- Where no call is in progress the sink is the installed connection's; the end of a task is reported when its connection is the
installed one and the task was not shut down; and a `restart` can install a connection. -/
structure OneCurrent (s : Client) : Prop where
  sink : (∀ i, s.calls i = none) → ∀ c, s.current = some c → s.sink = some c
  reports : ∀ e ∈ s.ends, e.reported = true ↔ e.installed = true ∧ e.shutDown = false
  recovers : ((retry s.begun).foldl step s).current = some s.connections

theorem restart_installs (s : Client) : ((retry s.begun).foldl step s).current = some s.connections := by
  have hset : ∀ (calls : Nat → Option Call) call, update calls s.begun call s.begun = call := fun _ _ => update_self ..
  cases hw : s.workspace with
  | none =>
    simp only [retry, List.foldl_cons, List.foldl_nil, step, initInner, isInitialized, hw, refuseInit, teardownBeforeConnect,
      connectFrom, setCall, hset, installLocked, Bool.not_true, Bool.false_and, Bool.true_and, Option.isSome_none,
      Bool.false_eq_true, if_false, if_true, current, Option.map_some]
  | some w =>
    simp only [retry, List.foldl_cons, List.foldl_nil, step, initInner, isInitialized, hw, refuseInit, teardownBeforeConnect,
      closeFrom, closeLocked, connectFrom, setCall, hset, installLocked, Bool.not_true, Bool.false_and, Bool.true_and,
      Option.isSome_some, Bool.false_eq_true, if_false, if_true, current, Option.map_some]

/-- The client has one current connection as long as attempts install in their turn, and sockets do not die while their connection is
set up or about to be closed. -/
theorem client_has_one_current (s : Client) (run : Reaches step Meets (· = new) s) : s.OneCurrent := by
  have h : s.Numbered ∧ s.Current := by
    induction run with
    | start h =>
      subst h
      refine ⟨numbered_new, ⟨?_, ?_, ?_, ?_⟩⟩
      all_goals simp [new, current]
    | step _ act hmeets ih => exact ⟨numbered_step ih.1 act, current_step ih.1 ih.2 act hmeets⟩
  refine ⟨fun hidle c hc => h.2.sink c hc fun i _ call hcall => ?_, h.2.ends, restart_installs s⟩
  rw [hidle i] at hcall
  cases hcall

theorem client_has_one_current_again :
    let s := [Act.init, .connect 0 true, .lock 0, .socketDies 0, .restart, .lock 1, .connect 1 true, .lock 1].foldl step new
    s.OneCurrent ∧ s.current = some 1 ∧ s.sink = some 1 ∧ s.ends = [⟨0, true, true, false⟩] :=
  ⟨client_has_one_current _ (reaches_foldl (by decide +kernel)), by decide +kernel, by decide +kernel, by decide +kernel⟩

/-- A connection that is installed after a `close_connection` has no sink, and its end is not reported; and of two that are set up at
once, one is installed with the other's sink. -/
theorem closed_while_connecting :
    let closed := [Act.init, .close, .lock 1, .connect 0 true, .lock 0].foldl step new
    let died := closed.step (.socketDies 0)
    let both := [Act.init, .init, .connect 0 true, .lock 0, .connect 1 false].foldl step new
    (closed.current = some 0 ∧ closed.sink = none ∧ ¬ closed.OneCurrent) ∧
      (died.ends = [⟨0, false, true, false⟩] ∧ ¬ died.OneCurrent) ∧
      both.current = some 0 ∧ both.sink = some 1 ∧ ¬ both.OneCurrent := by
  have hsink : ∀ s : Client, (∀ i, s.calls i = none) → s.current = some 0 → s.sink ≠ some 0 → ¬ s.OneCurrent :=
    fun s hidle hc hne h => hne (h.sink hidle 0 hc)
  have hidle : ∀ s : Client, s.Numbered → (∀ i < s.begun, s.calls i = none) → ∀ i, s.calls i = none := by
    intro s hn h i
    by_cases hi : i < s.begun
    · exact h i hi
    · exact hn.calls_none (Nat.not_lt.mp hi)
  have hnumbered : ∀ acts : List Act, (acts.foldl step new).Numbered := by
    intro acts
    have hrun : ∀ s : Client, s.Numbered → (acts.foldl step s).Numbered := by
      induction acts with
      | nil => exact fun s h => h
      | cons act acts ih => exact fun s h => ih (s.step act) (numbered_step h act)
    exact hrun new numbered_new
  intro closed died both
  have hends : died.ends = [⟨0, false, true, false⟩] := by decide +kernel
  refine ⟨⟨by decide +kernel, by decide +kernel, hsink closed ?_ (by decide +kernel) (by decide +kernel)⟩, ⟨hends, fun h => ?_⟩,
    by decide +kernel, by decide +kernel, hsink both ?_ (by decide +kernel) (by decide +kernel)⟩
  · exact hidle closed (hnumbered _) (by decide +kernel)
  · have hreport := h.reports ⟨0, false, true, false⟩ (by rw [hends]; exact List.mem_singleton.mpr rfl)
    exact nomatch hreport.mpr ⟨rfl, rfl⟩
  · exact hidle both (hnumbered _) (by decide +kernel)

end Client

end CitadelAgent.WasmClient
