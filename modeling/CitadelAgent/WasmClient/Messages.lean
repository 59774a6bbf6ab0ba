import CitadelAgent.WasmClient.Client

/-!
# Rescued messages

* `Client.Orderly` : a receiver of an older state is given back when the newer state's is in its slot, and a state that holds rescued
  messages is not replaced;
* `Client.Own` : where the installed state's receiver is then;
* `Client.Placed` : each message is in one place, and the rescued ones are answered or pending, in their order;
* `Client.Keeps`, `Client.client_keeps_messages` : the claim of the stream;
* `Client.stream_is_displaced` : an older receiver takes the empty slot of a newer state.
-/

namespace CitadelAgent.WasmClient
open Function Machine

variable {i : Nat} {m : Msg} {w : WorkspaceState}

namespace Client

/-- A state is installed where none holds rescued messages; a response that was rescued can be given to the page; and an older receiver
is given back when the newer state's is in its slot. -/
def Orderly (s : Client) : Act → Prop
  | .lock i => ∀ call ∈ s.calls i, call.sets.isSome = true → ∀ w ∈ s.workspace, w.pending = []
  | .next ok => ∀ w ∈ s.workspace, w.pending ≠ [] → ok = true
  | .giveBack i _ => ∀ reader ∈ s.readers i, ∀ w ∈ s.workspace, reader.receiver ≠ w.connection → w.stream.isSome = true
  | _ => True

instance (s : Client) : ∀ act, Decidable (s.Orderly act)
  | .lock i => inferInstanceAs (Decidable (∀ call ∈ s.calls i, call.sets.isSome = true → ∀ w ∈ s.workspace, w.pending = []))
  | .next ok => inferInstanceAs (Decidable (∀ w ∈ s.workspace, w.pending ≠ [] → ok = true))
  | .giveBack i _ => inferInstanceAs (Decidable (∀ reader ∈ s.readers i, ∀ w ∈ s.workspace,
      reader.receiver ≠ w.connection → w.stream.isSome = true))
  | .init => isTrue trivial
  | .restart => isTrue trivial
  | .close => isTrue trivial
  | .connect _ _ => isTrue trivial
  | .socketDies _ => isTrue trivial
  | .shutdown _ => isTrue trivial
  | .arrive _ => isTrue trivial
  | .hangUp _ => isTrue trivial
  | .receive _ => isTrue trivial

def Holds (s : Client) (i r : Nat) : Prop := ∃ reader, s.readers i = some reader ∧ reader.receiver = r

/-- The installed state's receiver is in its slot, or one reader has it; rescued messages are pending only while it is in its slot. -/
structure Own (s : Client) : Prop where
  slot : ∀ w, s.workspace = some w → w.stream = some w.connection ∧ (∀ i, ¬ s.Holds i w.connection) ∨
    w.stream = none ∧ ∃ i, s.Holds i w.connection ∧ ∀ j, s.Holds j w.connection → j = i
  pending : ∀ w, s.workspace = some w → w.pending ≠ [] → w.stream = some w.connection

variable {s t : Client}

theorem Own.same (h : s.Own) (hholds : ∀ i r, t.Holds i r ↔ s.Holds i r)
    (hworkspace : ∀ w, t.workspace = some w → ∃ w', s.workspace = some w' ∧ w.connection = w'.connection ∧ w.stream = w'.stream ∧
      (w.pending ≠ [] → w'.pending ≠ [])) : t.Own where
  slot w hw := by
    obtain ⟨w', hw', hconn, hstream, -⟩ := hworkspace w hw
    simp only [hholds, hconn, hstream]
    exact h.slot w' hw'
  pending w hw hpending := by
    obtain ⟨w', hw', hconn, hstream, hnonempty⟩ := hworkspace w hw
    rw [hconn, hstream]
    exact h.pending w' hw' (hnonempty hpending)

theorem Own.still (h : s.Own) (hreaders : t.readers = s.readers) (hworkspace : t.workspace = s.workspace) : t.Own := by
  refine h.same (fun i r => ?_) fun w hw => ⟨w, hworkspace ▸ hw, rfl, rfl, id⟩
  unfold Holds
  rw [hreaders]

theorem own_none (h : s.workspace = none) : s.Own := by
  constructor
  · intro w hw
    rw [h] at hw
    exact nomatch hw
  · intro w hw
    rw [h] at hw
    exact nomatch hw

theorem own_install (hn : s.Numbered) {c generation : Nat} (hi : s.calls i = some (.installing c generation)) :
    (s.installLocked i c).Own := by
  constructor
  · intro w hw
    obtain rfl := Option.some.inj hw
    refine .inl ⟨rfl, fun j ⟨reader, hj, hc⟩ => ?_⟩
    have hin := (hn.readers j reader hj).2
    rw [hc] at hin
    exact (hn.made i _ c hi rfl).2 hin
  · intro w hw hpending
    obtain rfl := Option.some.inj hw
    exact (hpending rfl).elim

theorem Own.next (h : s.Own) (ok : Bool) : (s.nextMessage ok).Own := by
  unfold nextMessage
  split
  · exact h
  · rename_i w hw
    split
    · rename_i m pending hpending
      have hpop : ({ s with workspace := some { w with pending := pending } } : Client).Own := by
        refine h.same (fun _ _ => Iff.rfl) fun w' hw' => ?_
        obtain rfl := Option.some.inj hw'
        refine ⟨w, hw, rfl, rfl, fun _ => ?_⟩
        rw [hpending]
        exact nofun
      unfold answer
      split_ifs
      · exact hpop.still rfl rfl
      · exact hpop
    · rename_i hpending
      split
      · rename_i r hr
        rcases h.slot w hw with ⟨hown, hnone⟩ | ⟨hempty, -⟩
        · obtain rfl : r = w.connection := Option.mem_unique hr hown
          have hholds : ∀ j r', ({ s.setReader s.reads (some ⟨w.connection, none⟩) with
              workspace := some { w with stream := none }
              reads := s.reads + 1 } : Client).Holds j r' ↔ j = s.reads ∧ r' = w.connection ∨ j ≠ s.reads ∧ s.Holds j r' := by
            intro j r'
            show (∃ reader, update s.readers s.reads _ j = some reader ∧ reader.receiver = r') ↔ _
            by_cases hsame : j = s.reads
            · rw [hsame, update_self]
              simp [eq_comm]
            · rw [update_of_ne hsame]
              simp [hsame, Holds]
          constructor
          · intro w' hw'
            obtain rfl := Option.some.inj hw'
            refine .inr ⟨rfl, s.reads, (hholds _ _).mpr (.inl ⟨rfl, rfl⟩), fun j hj => ?_⟩
            rcases (hholds _ _).mp hj with ⟨rfl, -⟩ | ⟨-, hold⟩
            · rfl
            · exact (hnone j hold).elim
          · intro w' hw' hne
            obtain rfl := Option.some.inj hw'
            exact (hne hpending).elim
        · rw [hempty] at hr
          exact nomatch hr
      · exact h

theorem restore_none (h : s.workspace = none) (r : Nat) :
    s.restoreMessageStream r = { s with queue := update s.queue r [] } := by
  simp only [restoreMessageStream, h]

theorem restore_empty (h : s.workspace = some w) (hempty : w.stream = none) (r : Nat) :
    s.restoreMessageStream r = { s with workspace := some { w with stream := some r }, rescued := s.rescuedWith w r } := by
  simp only [restoreMessageStream, h, hempty]

theorem restore_full {r' : Nat} (h : s.workspace = some w) (hfull : w.stream = some r') (r : Nat) :
    s.restoreMessageStream r = { s with
      workspace := some { w with pending := w.pending ++ s.queue r }
      queue := update s.queue r []
      rescued := s.rescuedWith w r } := by
  simp only [restoreMessageStream, h, hfull, drainQueued_eq]

theorem restore_readers (r : Nat) : (s.restoreMessageStream r).readers = s.readers := by
  unfold restoreMessageStream
  split
  · rfl
  · split
    · rfl
    · rfl

theorem Own.giveBack (h : s.Own) {reader : Reader} (hi : s.readers i = some reader)
    (horderly : ∀ w ∈ s.workspace, reader.receiver ≠ w.connection → w.stream.isSome = true) :
    ((s.setReader i none).restoreMessageStream reader.receiver).Own := by
  have hholds : ∀ j r, (∃ reader', update s.readers i none j = some reader' ∧ reader'.receiver = r) ↔ j ≠ i ∧ s.Holds j r := by
    intro j r
    by_cases hsame : j = i
    · rw [hsame, update_self]
      simp
    · rw [update_of_ne hsame]
      simp [hsame, Holds]
  cases hw : s.workspace with
  | none =>
    rw [restore_none (s := s.setReader i none) hw]
    exact own_none hw
  | some w =>
    rcases h.slot w hw with ⟨hown, hnone⟩ | ⟨hempty, k, hk, honly⟩
    · -- The reader has an older receiver.
      rw [restore_full (s := s.setReader i none) hw hown]
      constructor
      · intro w' hw'
        obtain rfl := Option.some.inj hw'
        exact .inl ⟨hown, fun j hj => hnone j ((hholds _ _).mp hj).2⟩
      · intro w' hw' _
        obtain rfl := Option.some.inj hw'
        exact hown
    · have hmine : reader.receiver = w.connection := by
        by_contra hne
        have hsome := horderly w hw hne
        rw [hempty] at hsome
        exact nomatch hsome
      obtain rfl := honly i ⟨reader, hi, hmine⟩
      rw [restore_empty (s := s.setReader i none) hw hempty]
      constructor
      · intro w' hw'
        obtain rfl := Option.some.inj hw'
        refine .inl ⟨congrArg some hmine, fun j hj => ?_⟩
        obtain ⟨hne, hold⟩ := (hholds _ _).mp hj
        exact hne (honly j hold)
      · intro w' hw' _
        obtain rfl := Option.some.inj hw'
        exact congrArg some hmine

theorem own_step (hn : s.Numbered) (h : s.Own) (act : Act) (horderly : s.Orderly act) : (s.step act).Own := by
  have hinit : ∀ restart, (s.initInner restart).Own := by
    intro restart
    unfold initInner
    dsimp only
    split_ifs
    · exact h.still rfl rfl
    · exact h.still rfl rfl
    · exact h.still rfl rfl
  cases act with
  | init => exact hinit false
  | restart => exact hinit true
  | close => exact h.still rfl rfl
  | lock i =>
    simp only [step]
    split
    · unfold closeLocked
      split
      · dsimp only
        split_ifs
        · exact own_none rfl
        · exact own_none rfl
      · exact h.still rfl rfl
    · rename_i c generation hi
      exact own_install hn hi
    · exact h
  | connect i ok =>
    simp only [step]
    split
    · split_ifs
      · exact h.still rfl rfl
      · exact h.still rfl rfl
    · exact h
  | socketDies c =>
    simp only [step]
    split
    · exact h.still rfl rfl
    · exact h
  | shutdown c =>
    simp only [step]
    split
    · split_ifs
      · exact h.still rfl rfl
      · exact h
    · exact h
  | arrive c => exact h.still rfl rfl
  | hangUp c => exact h.still rfl rfl
  | next ok => exact h.next ok
  | receive i =>
    simp only [step]
    split
    · rename_i r hi
      have hset : ∀ got j r', (s.setReader i (some ⟨r, got⟩)).Holds j r' ↔ s.Holds j r' := by
        intro got j r'
        show (∃ reader, update s.readers i _ j = some reader ∧ reader.receiver = r') ↔ _
        by_cases hsame : j = i
        · rw [hsame, update_self, Holds, hi]
          simp
        · rw [update_of_ne hsame]
          rfl
      split
      · exact h.same (hset _) fun w hw => ⟨w, hw, rfl, rfl, id⟩
      · split_ifs
        · exact h.same (hset _) fun w hw => ⟨w, hw, rfl, rfl, id⟩
        · exact h
    · exact h
  | giveBack i ok =>
    simp only [step]
    split
    · rename_i r m hi
      have hback := h.giveBack hi (horderly _ hi)
      unfold answer
      split_ifs
      · exact hback.still rfl rfl
      · exact hback
    · rename_i r hi
      exact h.giveBack hi (horderly _ hi)
    · exact h

/-! ## Where a message is -/

inductive Loc
  | unborn
  | queue (connection : Nat)
  | hand (reader : Nat)
  | pending
  | answered
  | gone

def pendingOf (s : Client) : List Msg := (s.workspace.map (·.pending)).getD []

/-- Each message is where `loc` says, once; and the rescued ones that were not discarded have been answered or are pending, in the order
in which they were rescued. -/
structure Placed (s : Client) (loc : Msg → Loc) : Prop where
  unborn : ∀ m, s.arrived ≤ m → loc m = .unborn
  queue : ∀ c, (s.queue c).Nodup ∧ ∀ m ∈ s.queue c, loc m = .queue c
  hand : ∀ i reader m, s.readers i = some reader → reader.got = some (some m) → loc m = .hand i
  pending : s.pendingOf.Nodup ∧ ∀ m ∈ s.pendingOf, loc m = .pending
  returned : s.returned.Nodup ∧ ∀ m ∈ s.returned, loc m = .answered
  rescued : ∀ m ∈ s.rescued, loc m = .pending ∨ loc m = .answered ∨ loc m = .gone
  discarded : ∀ m ∈ s.discarded, loc m = .gone
  balanced : s.rescued.filter (· ∉ s.discarded) = s.returned.filter (· ∈ s.rescued) ++ s.pendingOf

variable {loc : Msg → Loc}

theorem Placed.same (h : s.Placed loc) (harrived : t.arrived = s.arrived) (hqueue : t.queue = s.queue)
    (hhand : ∀ i reader m, t.readers i = some reader → reader.got = some (some m) →
      ∃ reader', s.readers i = some reader' ∧ reader'.got = some (some m))
    (hpending : t.pendingOf = s.pendingOf) (hreturned : t.returned = s.returned) (hrescued : t.rescued = s.rescued)
    (hdiscarded : t.discarded = s.discarded) : t.Placed loc where
  unborn := harrived ▸ h.unborn
  queue := hqueue ▸ h.queue
  hand i reader m hi hgot := by
    obtain ⟨reader', hi', hgot'⟩ := hhand i reader m hi hgot
    exact h.hand i reader' m hi' hgot'
  pending := hpending ▸ h.pending
  returned := hreturned ▸ h.returned
  rescued := hrescued ▸ h.rescued
  discarded := hdiscarded ▸ h.discarded
  balanced := by
    rw [hpending, hreturned, hrescued, hdiscarded]
    exact h.balanced

theorem place_update {l l' : Loc} (hm : loc m = l) {m' : Msg} {l'' : Loc} (hm' : loc m' = l'') (hne : l'' ≠ l) :
    update loc m l' m' = l'' := by
  have hne' : m' ≠ m := by
    rintro rfl
    exact hne (hm'.symm.trans hm)
  rw [update_of_ne hne', hm']

theorem Placed.arrive (h : s.Placed loc) (c : Nat) : (s.step (.arrive c)).Placed (update loc s.arrived (.queue c)) := by
  have hborn := h.unborn s.arrived le_rfl
  have hkeep : ∀ {m l}, loc m = l → l ≠ .unborn → update loc s.arrived (.queue c) m = l := fun hm hne => place_update hborn hm hne
  constructor
  · intro m hm
    replace hm : s.arrived + 1 ≤ m := hm
    have hne : m ≠ s.arrived := by omega
    rw [update_of_ne hne]
    exact h.unborn m (by omega)
  · intro c'
    obtain ⟨hnodup, hloc⟩ := h.queue c'
    show (update s.queue c (s.queue c ++ [s.arrived]) c').Nodup ∧ ∀ m ∈ update s.queue c (s.queue c ++ [s.arrived]) c', _
    by_cases hsame : c' = c
    · subst hsame
      rw [update_self]
      have hnot : s.arrived ∉ s.queue c' := fun hin => nomatch hborn.symm.trans (hloc _ hin)
      refine ⟨List.nodup_append.mpr ⟨hnodup, List.nodup_singleton _, ?_⟩, fun m hm => ?_⟩
      · rintro m hm m' hm' rfl
        exact hnot (List.mem_singleton.mp hm' ▸ hm)
      · rcases List.mem_append.mp hm with hold | hnew
        · exact hkeep (hloc m hold) nofun
        · rw [List.mem_singleton.mp hnew, update_self]
    · rw [update_of_ne hsame]
      exact ⟨hnodup, fun m hm => hkeep (hloc m hm) nofun⟩
  · exact fun i reader m hi hgot => hkeep (h.hand i reader m hi hgot) nofun
  · exact ⟨h.pending.1, fun m hm => hkeep (h.pending.2 m hm) nofun⟩
  · exact ⟨h.returned.1, fun m hm => hkeep (h.returned.2 m hm) nofun⟩
  · intro m hm
    exact (h.rescued m hm).imp (hkeep · nofun) (Or.imp (hkeep · nofun) (hkeep · nofun))
  · exact fun m hm => hkeep (h.discarded m hm) nofun
  · exact h.balanced

theorem Placed.receive (h : s.Placed loc) {r : Nat} {queue : List Msg} (hi : s.readers i = some ⟨r, none⟩)
    (hq : s.queue r = m :: queue) :
    ({ s.setReader i (some ⟨r, some (some m)⟩) with queue := update s.queue r queue } : Client).Placed
      (update loc m (.hand i)) := by
  have hm : loc m = .queue r := (h.queue r).2 m (hq ▸ List.mem_cons_self)
  have hnodup := (h.queue r).1
  rw [hq, List.nodup_cons] at hnodup
  have hkeep : ∀ {m' l}, loc m' = l → l ≠ .queue r → update loc m (.hand i) m' = l := fun hm' hne => place_update hm hm' hne
  constructor
  · exact fun m' hm' => hkeep (h.unborn m' hm') nofun
  · intro c
    show (update s.queue r queue c).Nodup ∧ ∀ m' ∈ update s.queue r queue c, _
    by_cases hsame : c = r
    · subst hsame
      rw [update_self]
      refine ⟨hnodup.2, fun m' hm' => ?_⟩
      have hne : m' ≠ m := by
        rintro rfl
        exact hnodup.1 hm'
      rw [update_of_ne hne]
      exact (h.queue c).2 m' (hq ▸ List.mem_cons_of_mem _ hm')
    · rw [update_of_ne hsame]
      exact ⟨(h.queue c).1, fun m' hm' => hkeep ((h.queue c).2 m' hm') (by simpa using hsame)⟩
  · intro j reader m' hj hgot
    replace hj : update s.readers i (some ⟨r, some (some m)⟩) j = some reader := hj
    rcases of_update_some hj with ⟨hsame, rfl⟩ | ⟨-, hj⟩
    · obtain rfl : m = m' := by simpa using hgot
      rw [hsame, update_self]
    · exact hkeep (h.hand j reader m' hj hgot) nofun
  · exact ⟨h.pending.1, fun m' hm' => hkeep (h.pending.2 m' hm') nofun⟩
  · exact ⟨h.returned.1, fun m' hm' => hkeep (h.returned.2 m' hm') nofun⟩
  · intro m' hm'
    exact (h.rescued m' hm').imp (hkeep · nofun) (Or.imp (hkeep · nofun) (hkeep · nofun))
  · exact fun m' hm' => hkeep (h.discarded m' hm') nofun
  · exact h.balanced

theorem Placed.answer (h : s.Placed loc) (hm : loc m = .hand i) (hi : s.readers i = none) (ok : Bool) :
    (s.answer m ok).Placed (update loc m (if ok then .answered else .gone)) := by
  have hkeep : ∀ {m' l}, loc m' = l → l ≠ .hand i → update loc m (if ok then .answered else .gone) m' = l :=
    fun hm' hne => place_update hm hm' hne
  have hhand : ∀ j reader m', s.readers j = some reader → reader.got = some (some m') →
      update loc m (if ok then .answered else .gone) m' = .hand j := by
    intro j reader m' hj hgot
    refine hkeep (h.hand j reader m' hj hgot) fun heq => ?_
    obtain rfl : j = i := by simpa using heq
    rw [hi] at hj
    exact nomatch hj
  have hnot : m ∉ s.rescued := by
    intro hin
    have hplaces := h.rescued m hin
    rw [hm] at hplaces
    simp at hplaces
  have hbase : s.Placed (update loc m (if ok then .answered else .gone)) :=
    ⟨fun m' hm' => hkeep (h.unborn m' hm') nofun, fun c => ⟨(h.queue c).1, fun m' hm' => hkeep ((h.queue c).2 m' hm') nofun⟩, hhand,
      ⟨h.pending.1, fun m' hm' => hkeep (h.pending.2 m' hm') nofun⟩,
      ⟨h.returned.1, fun m' hm' => hkeep (h.returned.2 m' hm') nofun⟩,
      fun m' hm' => (h.rescued m' hm').imp (hkeep · nofun) (Or.imp (hkeep · nofun) (hkeep · nofun)),
      fun m' hm' => hkeep (h.discarded m' hm') nofun, h.balanced⟩
  unfold Client.answer
  cases ok with
  | false => exact hbase
  | true =>
    refine ⟨hbase.unborn, hbase.queue, hbase.hand, hbase.pending, ⟨?_, fun m' hm' => ?_⟩, hbase.rescued, hbase.discarded, ?_⟩
    · refine List.nodup_append.mpr ⟨h.returned.1, List.nodup_singleton _, ?_⟩
      rintro m' hm' m'' hm'' rfl
      obtain rfl := List.mem_singleton.mp hm''
      exact nomatch hm.symm.trans (h.returned.2 m' hm')
    · rcases List.mem_append.mp hm' with hold | hnew
      · exact hbase.returned.2 m' hold
      · rw [List.mem_singleton.mp hnew, update_self]
        rfl
    · show s.rescued.filter (· ∉ s.discarded) = (s.returned ++ [m]).filter (· ∈ s.rescued) ++ s.pendingOf
      rw [List.filter_append, List.filter_cons_of_neg (by simpa using hnot), List.filter_nil, List.append_nil]
      exact h.balanced

theorem Placed.pop (h : s.Placed loc) (hw : s.workspace = some w) {pending : List Msg} (hpending : w.pending = m :: pending) :
    ({ s with workspace := some { w with pending := pending }, returned := s.returned ++ [m] } : Client).Placed
      (update loc m .answered) := by
  have hof : s.pendingOf = m :: pending := by rw [pendingOf, hw, Option.map_some, Option.getD_some, hpending]
  have hm : loc m = .pending := h.pending.2 m (hof ▸ List.mem_cons_self)
  have hkeep : ∀ {m' l}, loc m' = l → l ≠ .pending → update loc m .answered m' = l := fun hm' hne => place_update hm hm' hne
  obtain ⟨hnodup, hall⟩ := h.pending
  rw [hof] at hnodup hall
  rw [List.nodup_cons] at hnodup
  have hbalanced := h.balanced
  rw [hof] at hbalanced
  have hin : m ∈ s.rescued := by
    refine (List.mem_filter.mp (?_ : m ∈ s.rescued.filter (· ∉ s.discarded))).1
    rw [hbalanced]
    exact List.mem_append_right _ List.mem_cons_self
  constructor
  · exact fun m' hm' => hkeep (h.unborn m' hm') nofun
  · exact fun c => ⟨(h.queue c).1, fun m' hm' => hkeep ((h.queue c).2 m' hm') nofun⟩
  · exact fun i reader m' hi hgot => hkeep (h.hand i reader m' hi hgot) nofun
  · refine ⟨hnodup.2, fun m' hm' => ?_⟩
    have hne : m' ≠ m := by
      rintro rfl
      exact hnodup.1 hm'
    rw [update_of_ne hne]
    exact hall m' (List.mem_cons_of_mem _ hm')
  · refine ⟨List.nodup_append.mpr ⟨h.returned.1, List.nodup_singleton _, ?_⟩, fun m' hm' => ?_⟩
    · rintro m' hm' m'' hm'' rfl
      obtain rfl := List.mem_singleton.mp hm''
      exact nomatch hm.symm.trans (h.returned.2 m' hm')
    · rcases List.mem_append.mp hm' with hold | hnew
      · exact hkeep (h.returned.2 m' hold) nofun
      · rw [List.mem_singleton.mp hnew, update_self]
  · intro m' hm'
    by_cases hsame : m' = m
    · exact .inr (.inl (by rw [hsame, update_self]))
    · rw [update_of_ne hsame]
      exact h.rescued m' hm'
  · exact fun m' hm' => hkeep (h.discarded m' hm') nofun
  · show s.rescued.filter (· ∉ s.discarded) = (s.returned ++ [m]).filter (· ∈ s.rescued) ++ pending
    rw [List.filter_append, List.filter_cons_of_pos (by simpa using hin), List.filter_nil, List.append_assoc, List.singleton_append]
    exact hbalanced

def moved (loc : Msg → Loc) (ms : List Msg) (l : Loc) (m : Msg) : Loc := if m ∈ ms then l else loc m

theorem moved_of {ms : List Msg} {l l' l'' : Loc} (hms : ∀ m ∈ ms, loc m = l) (hm : loc m = l') (hne : l' ≠ l) :
    moved loc ms l'' m = l' := by
  have hnot : m ∉ ms := fun hin => hne (hm.symm.trans (hms m hin))
  rw [moved, if_neg hnot, hm]

theorem Placed.drop (h : s.Placed loc) (hw : s.workspace = some w) :
    ({ s with workspace := none, discarded := s.discarded ++ w.pending } : Client).Placed (moved loc w.pending .gone) := by
  have hof : s.pendingOf = w.pending := by rw [pendingOf, hw, Option.map_some, Option.getD_some]
  have hpending := h.pending
  have hbalanced := h.balanced
  rw [hof] at hpending hbalanced
  have hkeep : ∀ {m l}, loc m = l → l ≠ .pending → moved loc w.pending .gone m = l := fun hm hne => moved_of hpending.2 hm hne
  constructor
  · exact fun m hm => hkeep (h.unborn m hm) nofun
  · exact fun c => ⟨(h.queue c).1, fun m hm => hkeep ((h.queue c).2 m hm) nofun⟩
  · exact fun i reader m hi hgot => hkeep (h.hand i reader m hi hgot) nofun
  · exact ⟨List.nodup_nil, nofun⟩
  · exact ⟨h.returned.1, fun m hm => hkeep (h.returned.2 m hm) nofun⟩
  · intro m hm
    by_cases hin : m ∈ w.pending
    · exact .inr (.inr (if_pos hin))
    · rw [moved, if_neg hin]
      exact h.rescued m hm
  · intro m hm
    rcases List.mem_append.mp hm with hold | hnew
    · exact hkeep (h.discarded m hold) nofun
    · exact if_pos hnew
  · show s.rescued.filter (· ∉ s.discarded ++ w.pending) = s.returned.filter (· ∈ s.rescued) ++ []
    have hsplit : s.rescued.filter (· ∉ s.discarded ++ w.pending) = (s.rescued.filter (· ∉ s.discarded)).filter (· ∉ w.pending) := by
      rw [List.filter_filter]
      refine List.filter_congr fun m _ => ?_
      simp [and_comm]
    have hanswered : ∀ m ∈ s.returned.filter (· ∈ s.rescued), decide (m ∉ w.pending) = true := by
      intro m hm
      rw [decide_eq_true_iff]
      exact fun hin => nomatch (h.returned.2 m (List.mem_filter.mp hm).1).symm.trans (hpending.2 m hin)
    have hdropped : w.pending.filter (· ∉ w.pending) = [] := by
      rw [List.filter_eq_nil_iff]
      simp
    rw [hsplit, hbalanced, List.filter_append, List.filter_eq_self.mpr hanswered, hdropped]

theorem Placed.discard (h : s.Placed loc) (r : Nat) :
    ({ s with queue := update s.queue r [] } : Client).Placed (moved loc (s.queue r) .gone) := by
  obtain ⟨-, hloc⟩ := h.queue r
  have hkeep : ∀ {m l}, loc m = l → l ≠ .queue r → moved loc (s.queue r) .gone m = l := fun hm hne => moved_of hloc hm hne
  constructor
  · exact fun m hm => hkeep (h.unborn m hm) nofun
  · intro c
    show (update s.queue r [] c).Nodup ∧ ∀ m ∈ update s.queue r [] c, _
    by_cases hsame : c = r
    · rw [hsame, update_self]
      exact ⟨List.nodup_nil, nofun⟩
    · rw [update_of_ne hsame]
      exact ⟨(h.queue c).1, fun m hm => hkeep ((h.queue c).2 m hm) (by simpa using hsame)⟩
  · exact fun i reader m hi hgot => hkeep (h.hand i reader m hi hgot) nofun
  · exact ⟨h.pending.1, fun m hm => hkeep (h.pending.2 m hm) nofun⟩
  · exact ⟨h.returned.1, fun m hm => hkeep (h.returned.2 m hm) nofun⟩
  · exact fun m hm => (h.rescued m hm).imp (hkeep · nofun) (Or.imp (hkeep · nofun) (hkeep · nofun))
  · exact fun m hm => hkeep (h.discarded m hm) nofun
  · exact h.balanced

theorem Placed.rescue (h : s.Placed loc) (hw : s.workspace = some w) (r : Nat) :
    ({ s with
      workspace := some { w with pending := w.pending ++ s.queue r }
      queue := update s.queue r []
      rescued := s.rescued ++ s.queue r } : Client).Placed (moved loc (s.queue r) .pending) := by
  have hof : s.pendingOf = w.pending := by rw [pendingOf, hw, Option.map_some, Option.getD_some]
  have hpending := h.pending
  have hbalanced := h.balanced
  rw [hof] at hpending hbalanced
  obtain ⟨hnodup, hloc⟩ := h.queue r
  have hkeep : ∀ {m l}, loc m = l → l ≠ .queue r → moved loc (s.queue r) .pending m = l := fun hm hne => moved_of hloc hm hne
  constructor
  · exact fun m hm => hkeep (h.unborn m hm) nofun
  · intro c
    show (update s.queue r [] c).Nodup ∧ ∀ m ∈ update s.queue r [] c, _
    by_cases hsame : c = r
    · rw [hsame, update_self]
      exact ⟨List.nodup_nil, nofun⟩
    · rw [update_of_ne hsame]
      exact ⟨(h.queue c).1, fun m hm => hkeep ((h.queue c).2 m hm) (by simpa using hsame)⟩
  · exact fun i reader m hi hgot => hkeep (h.hand i reader m hi hgot) nofun
  · show (w.pending ++ s.queue r).Nodup ∧ ∀ m ∈ w.pending ++ s.queue r, _
    refine ⟨List.nodup_append.mpr ⟨hpending.1, hnodup, ?_⟩, fun m hm => ?_⟩
    · rintro m hm m' hm' rfl
      exact nomatch (hpending.2 m hm).symm.trans (hloc m hm')
    · rcases List.mem_append.mp hm with hold | hnew
      · exact hkeep (hpending.2 m hold) nofun
      · exact if_pos hnew
  · exact ⟨h.returned.1, fun m hm => hkeep (h.returned.2 m hm) nofun⟩
  · intro m hm
    rcases List.mem_append.mp hm with hold | hnew
    · exact (h.rescued m hold).imp (hkeep · nofun) (Or.imp (hkeep · nofun) (hkeep · nofun))
    · exact .inl (if_pos hnew)
  · exact fun m hm => hkeep (h.discarded m hm) nofun
  · show (s.rescued ++ s.queue r).filter (· ∉ s.discarded) =
      s.returned.filter (· ∈ s.rescued ++ s.queue r) ++ (w.pending ++ s.queue r)
    have hqueued : ∀ m ∈ s.queue r, decide (m ∉ s.discarded) = true := by
      intro m hm
      rw [decide_eq_true_iff]
      exact fun hin => nomatch (hloc m hm).symm.trans (h.discarded m hin)
    have hreturned : s.returned.filter (· ∈ s.rescued ++ s.queue r) = s.returned.filter (· ∈ s.rescued) := by
      refine List.filter_congr fun m hm => decide_eq_decide.mpr ?_
      rw [List.mem_append, or_iff_left]
      exact fun hin => nomatch (hloc m hin).symm.trans (h.returned.2 m hm)
    rw [List.filter_append, List.filter_eq_self.mpr hqueued, hbalanced, hreturned, List.append_assoc]

theorem Placed.restore (ho : s.Own) (h : s.Placed loc) {reader : Reader} (hi : s.readers i = some reader)
    (horderly : ∀ w ∈ s.workspace, reader.receiver ≠ w.connection → w.stream.isSome = true) :
    ∃ loc', ((s.setReader i none).restoreMessageStream reader.receiver).Placed loc' ∧
      ∀ m j, loc m = .hand j → loc' m = .hand j := by
  have hfree : (s.setReader i none).Placed loc := by
    refine h.same rfl rfl (fun j reader' m hj hgot => ?_) rfl rfl rfl rfl
    replace hj : update s.readers i none j = some reader' := hj
    obtain ⟨-, hj⟩ := of_update_none hj
    exact ⟨reader', hj, hgot⟩
  have hloc := (h.queue reader.receiver).2
  cases hw : s.workspace with
  | none =>
    rw [restore_none (s := s.setReader i none) hw]
    exact ⟨_, hfree.discard _, fun m j hm => moved_of hloc hm nofun⟩
  | some w =>
    rcases ho.slot w hw with ⟨hown, hnone⟩ | ⟨hempty, -⟩
    · have hother : reader.receiver ≠ w.connection := fun heq => hnone i ⟨reader, hi, heq⟩
      rw [restore_full (s := s.setReader i none) hw hown, rescuedWith, if_neg hother]
      exact ⟨_, hfree.rescue hw _, fun m j hm => moved_of hloc hm nofun⟩
    · have hmine : reader.receiver = w.connection := by
        by_contra hne
        have hsome := horderly w hw hne
        rw [hempty] at hsome
        exact nomatch hsome
      rw [restore_empty (s := s.setReader i none) hw hempty, rescuedWith, if_pos hmine]
      refine ⟨loc, hfree.same rfl rfl (fun j reader' m hj hgot => ⟨reader', hj, hgot⟩) ?_ rfl rfl rfl, fun m j hm => hm⟩
      show w.pending = s.pendingOf
      rw [pendingOf, hw, Option.map_some, Option.getD_some]

theorem Placed.next (h : s.Placed loc) {ok : Bool} (horderly : s.Orderly (.next ok)) :
    ∃ loc', (s.nextMessage ok).Placed loc' := by
  unfold nextMessage
  split
  · exact ⟨loc, h⟩
  · rename_i w hw
    split
    · rename_i m pending hpending
      have hok : ok = true := horderly w hw (by rw [hpending]; exact nofun)
      subst hok
      exact ⟨_, h.pop hw hpending⟩
    · split
      · refine ⟨loc, h.same rfl rfl (fun j reader m hj hgot => ?_) ?_ rfl rfl rfl⟩
        · replace hj : update s.readers s.reads _ j = some reader := hj
          rcases of_update_some hj with ⟨-, rfl⟩ | ⟨-, hj⟩
          · exact nomatch hgot
          · exact ⟨reader, hj, hgot⟩
        · show w.pending = s.pendingOf
          rw [pendingOf, hw, Option.map_some, Option.getD_some]
      · exact ⟨loc, h⟩

theorem placed_step (ho : s.Own) (h : s.Placed loc) (act : Act) (horderly : s.Orderly act) :
    ∃ loc', (s.step act).Placed loc' := by
  have hstill : ∀ t : Client, t.arrived = s.arrived → t.queue = s.queue → t.readers = s.readers → t.workspace = s.workspace →
      t.returned = s.returned → t.rescued = s.rescued → t.discarded = s.discarded → ∃ loc', t.Placed loc' := by
    intro t harrived hqueue hreaders hworkspace hreturned hrescued hdiscarded
    refine ⟨loc, h.same harrived hqueue (fun j reader m hj hgot => ⟨reader, hreaders ▸ hj, hgot⟩) ?_ hreturned hrescued hdiscarded⟩
    rw [pendingOf, hworkspace, pendingOf]
  have hinit : ∀ restart, ∃ loc', (s.initInner restart).Placed loc' := by
    intro restart
    unfold initInner
    dsimp only
    split_ifs
    · exact hstill _ rfl rfl rfl rfl rfl rfl rfl
    · exact hstill _ rfl rfl rfl rfl rfl rfl rfl
    · exact hstill _ rfl rfl rfl rfl rfl rfl rfl
  cases act with
  | init => exact hinit false
  | restart => exact hinit true
  | close => exact hstill _ rfl rfl rfl rfl rfl rfl rfl
  | lock i =>
    simp only [step]
    split
    · unfold closeLocked
      split
      · rename_i w hw
        have hdrop := h.drop hw
        dsimp only
        split_ifs
        · exact ⟨_, hdrop.same rfl rfl (fun j reader m hj hgot => ⟨reader, hj, hgot⟩) rfl rfl rfl rfl⟩
        · exact ⟨_, hdrop.same rfl rfl (fun j reader m hj hgot => ⟨reader, hj, hgot⟩) rfl rfl rfl rfl⟩
      · exact hstill _ rfl rfl rfl rfl rfl rfl rfl
    · rename_i c generation hi
      have hempty : s.pendingOf = [] := by
        unfold pendingOf
        cases hw : s.workspace with
        | none => rfl
        | some w => exact horderly _ hi rfl w hw
      exact ⟨loc, h.same rfl rfl (fun j reader m hj hgot => ⟨reader, hj, hgot⟩) hempty.symm rfl rfl rfl⟩
    · exact ⟨loc, h⟩
  | connect i ok =>
    simp only [step]
    split
    · split_ifs
      · exact hstill _ rfl rfl rfl rfl rfl rfl rfl
      · exact hstill _ rfl rfl rfl rfl rfl rfl rfl
    · exact ⟨loc, h⟩
  | socketDies c =>
    simp only [step]
    split
    · exact hstill _ rfl rfl rfl rfl rfl rfl rfl
    · exact ⟨loc, h⟩
  | shutdown c =>
    simp only [step]
    split
    · split_ifs
      · exact hstill _ rfl rfl rfl rfl rfl rfl rfl
      · exact ⟨loc, h⟩
    · exact ⟨loc, h⟩
  | arrive c => exact ⟨_, h.arrive c⟩
  | hangUp c => exact hstill _ rfl rfl rfl rfl rfl rfl rfl
  | next ok => exact h.next horderly
  | receive i =>
    simp only [step]
    split
    · rename_i r hi
      split
      · rename_i m queue hq
        exact ⟨_, h.receive hi hq⟩
      · split_ifs
        · refine ⟨loc, h.same rfl rfl (fun j reader m hj hgot => ?_) rfl rfl rfl rfl⟩
          replace hj : update s.readers i (some ⟨r, some none⟩) j = some reader := hj
          rcases of_update_some hj with ⟨-, rfl⟩ | ⟨-, hj⟩
          · cases hgot
          · exact ⟨reader, hj, hgot⟩
        · exact ⟨loc, h⟩
    · exact ⟨loc, h⟩
  | giveBack i ok =>
    simp only [step]
    split
    · rename_i r m hi
      obtain ⟨loc', hplaced, hhand⟩ := h.restore ho hi (horderly _ hi)
      have hm := hhand m i (h.hand i _ m hi rfl)
      refine ⟨_, hplaced.answer hm ?_ ok⟩
      rw [restore_readers]
      exact update_self ..
    · rename_i r hi
      obtain ⟨loc', hplaced, -⟩ := h.restore ho hi (horderly _ hi)
      exact ⟨loc', hplaced⟩
    · exact ⟨loc, h⟩

/-! ## The claim of the stream -/

/-- The installed state's receiver is in its slot or with one reader. The messages that were queued in older receivers
are answered or pending, once and in their order; the newer receiver is then in its slot. No message is answered
twice. -/
structure Keeps (s : Client) : Prop where
  own : ∀ w, s.workspace = some w → w.stream = some w.connection ∧ (∀ i, ¬ s.Holds i w.connection) ∨
    w.stream = none ∧ ∃ i, s.Holds i w.connection ∧ ∀ j, s.Holds j w.connection → j = i
  rescued : s.rescued.filter (· ∉ s.discarded) = s.returned.filter (· ∈ s.rescued) ++ s.pendingOf
  first : ∀ w, s.workspace = some w → w.pending ≠ [] → w.stream = some w.connection ∧ ∀ i, ¬ s.Holds i w.connection
  once : s.returned.Nodup

/-- The client keeps its stream and its rescued messages as long as older receivers are given back in order. -/
theorem client_keeps_messages (s : Client) (run : Reaches step Orderly (· = new) s) : s.Keeps := by
  have h : s.Numbered ∧ s.Own ∧ ∃ loc, s.Placed loc := by
    induction run with
    | start h =>
      subst h
      refine ⟨numbered_new, own_none rfl, fun _ => .unborn, ⟨?_, ?_, ?_, ?_, ?_, ?_, ?_, ?_⟩⟩
      all_goals simp [new, pendingOf]
    | step _ act horderly ih =>
      obtain ⟨hn, ho, loc, hp⟩ := ih
      exact ⟨numbered_step hn act, own_step hn ho act horderly, placed_step ho hp act horderly⟩
  obtain ⟨-, ho, loc, hp⟩ := h
  refine ⟨ho.slot, hp.balanced, fun w hw hpending => ?_, hp.returned.1⟩
  have hstream := ho.pending w hw hpending
  refine (ho.slot w hw).resolve_right ?_
  rw [hstream]
  exact fun hempty => by cases hempty.1

theorem client_keeps_messages_restarted :
    let s := [Act.init, .connect 0 true, .lock 0, .next true, .arrive 0, .receive 0, .arrive 0, .arrive 0, .restart, .lock 1,
      .connect 1 true, .lock 1, .arrive 1, .giveBack 0 true, .next true, .next true].foldl step new
    s.Keeps ∧ s.rescued = [1, 2] ∧ s.returned = [0, 1, 2] ∧ s.current = some 1 :=
  ⟨client_keeps_messages _ (reaches_foldl (by decide +kernel)), by decide +kernel, by decide +kernel, by decide +kernel⟩

/-- A reader of the newer receiver is parked when that of the older gives its own back: the older one takes the slot,
its messages stay behind the newer ones, and the newer receiver is dropped when it comes back. -/
theorem stream_is_displaced :
    let displaced := [Act.init, .connect 0 true, .lock 0, .next true, .arrive 0, .receive 0, .arrive 0, .restart, .lock 1,
      .connect 1 true, .lock 1, .next true, .giveBack 0 true].foldl step new
    let dropped := [Act.arrive 1, .receive 1, .giveBack 1 true].foldl step displaced
    (displaced.workspace = some ⟨1, some 0, []⟩ ∧ displaced.queue 0 = [1] ∧ ¬ displaced.Keeps) ∧
      dropped.workspace = some ⟨1, some 0, []⟩ ∧ dropped.returned = [0, 2] ∧ ¬ dropped.Keeps := by
  have hnot : ∀ s : Client, s.workspace = some ⟨1, some 0, []⟩ → ¬ s.Keeps := by
    intro s hw h
    rcases h.own _ hw with ⟨hown, -⟩ | ⟨hempty, -⟩
    · exact nomatch hown
    · exact nomatch hempty
  intro displaced dropped
  have hdisplaced : displaced.workspace = some ⟨1, some 0, []⟩ := by decide +kernel
  have hdropped : dropped.workspace = some ⟨1, some 0, []⟩ := by decide +kernel
  exact ⟨⟨hdisplaced, by decide +kernel, hnot _ hdisplaced⟩, hdropped, by decide +kernel, hnot _ hdropped⟩

end Client

end CitadelAgent.WasmClient
