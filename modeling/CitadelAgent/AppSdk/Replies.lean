import CitadelAgent.AppSdk.Pending
import CitadelAgent.Lib.Updates

/-!
# Each reply reaches its call once

* `World.Given` : continuations and the replies they are given;
* `World.EachOnce` : each continuation runs at most once, in a drain, with its own call's reply, and once its `ReplyReady` has come
  and a drain is over, it has run; no reply is another call's; and what was given away is read;
* `World.late_continuation_is_lost` : a continuation attached after the handle's `ReplyReady`.
-/

namespace CitadelAgent.AppSdk
open Function Machine

variable {call : Nat} {i : Int}

namespace World

variable {V : Type} {s t : World V}

/-! ## Handles keep their owners -/

theorem Owned.own (h : s.Owned) (p' : Option (Pending V)) (hcall : call < s.calls)
    (hfree : ∀ i entry, s.waiting i = some entry → entry.call ≠ call)
    (hhandle : (s.pendings call).bind Pending.handle = p'.bind Pending.handle)
    (hp' : ∀ q ∈ p', (q.state = none ↔ q.decode = none) ∧ ∀ r, q.state = some (.done r) → s.answers call = some r) :
    (s.own call p').Owned where
  toHosted := ⟨h.fresh, h.slots, h.inj, h.owedOnce, h.owed⟩
  owner i slot hi := by
    refine (h.owner i slot hi).imp_left fun ⟨p, hp, hwaits⟩ => ?_
    by_cases hsame : slot.call = call
    · rw [hsame] at hp ⊢
      rw [hp, Option.bind_some, hwaits] at hhandle
      obtain ⟨q, hq, hqwaits⟩ := Option.bind_eq_some_iff.mp hhandle.symm
      exact ⟨q, (update_self ..).trans hq, hqwaits⟩
    · exact ⟨p, (update_of_ne hsame ..).trans hp, hwaits⟩
  decode c p hp := by
    replace hp : update s.pendings call p' c = some p := hp
    rcases of_update hp with ⟨hsame, hp⟩ | ⟨-, hp⟩
    · exact ⟨hsame ▸ hcall, (hp' p hp).1⟩
    · exact h.decode c p hp
  waits c p hp i hi := by
    replace hp : update s.pendings call p' c = some p := hp
    rcases of_update hp with ⟨hsame, hp⟩ | ⟨-, hp⟩
    · rw [hp, Option.bind_some, hi] at hhandle
      obtain ⟨q, hq, hqwaits⟩ := Option.bind_eq_some_iff.mp hhandle
      exact hsame ▸ h.waits call q hq i hqwaits
    · exact h.waits c p hp i hi
  answered c p r hp hr := by
    replace hp : update s.pendings call p' c = some p := hp
    rcases of_update hp with ⟨hsame, hp⟩ | ⟨-, hp⟩
    · exact hsame ▸ (hp' p hp).2 r hr
    · exact h.answered c p r hp hr
  table i entry hi := by
    obtain ⟨hslot, howed, hnone, hthen⟩ := h.table i entry hi
    exact ⟨hslot, howed, (update_of_ne (hfree i entry hi) ..).trans hnone, hthen⟩

theorem Owned.free (h : s.Owned) {call : Nat} {p : Pending V} (hp : s.pendings call = some p) :
    ∀ i entry, s.waiting i = some entry → entry.call ≠ call := by
  rintro i entry hi rfl
  have hnone := (h.table i entry hi).2.2.1
  rw [hp] at hnone
  exact nomatch hnone

theorem Owned.handOver (h : s.Owned) {call : Nat} {i : Int} {p : Pending V} (hp : s.pendings call = some p)
    (hi : p.handle = some i) (howes : s.Owes call) (entry : Entry V) (hcall : entry.call = call)
    (hthen : ∀ c ∈ entry.then_, c.call = entry.call) : ((s.wait i entry).release call).Owned where
  toHosted := ⟨h.fresh, h.slots, h.inj, h.owedOnce, h.owed⟩
  owner j slot hj := by
    obtain ⟨slot', hslot', hcall'⟩ := h.waits call p hp i hi
    by_cases hsame : j = i
    · subst hsame
      obtain rfl := Option.mem_unique hslot' hj
      exact .inr ⟨entry, update_self .., hcall.trans hcall'.symm⟩
    · rcases h.owner j slot hj with ⟨q, hq, hqwaits⟩ | ⟨e, he, hecall⟩
      · have hne : slot.call ≠ call := fun heq => hsame (h.inj j i slot slot' hj hslot' (heq.trans hcall'.symm))
        exact .inl ⟨q, (update_of_ne hne ..).trans hq, hqwaits⟩
      · exact .inr ⟨e, (update_of_ne hsame ..).trans he, hecall⟩
  decode c q hq := by
    replace hq : update s.pendings call none c = some q := hq
    obtain ⟨-, hq⟩ := of_update_none hq
    exact h.decode c q hq
  waits c q hq := by
    replace hq : update s.pendings call none c = some q := hq
    obtain ⟨-, hq⟩ := of_update_none hq
    exact h.waits c q hq
  answered c q r hq := by
    replace hq : update s.pendings call none c = some q := hq
    obtain ⟨-, hq⟩ := of_update_none hq
    exact h.answered c q r hq
  table j e he := by
    replace he : update s.waiting i (some entry) j = some e := he
    rcases of_update_some he with ⟨rfl, rfl⟩ | ⟨-, he⟩
    · obtain ⟨slot, hslot, hslotcall⟩ := h.waits call p hp j hi
      obtain ⟨⟨_, handle⟩, hin, rfl⟩ := List.mem_map.mp howes
      obtain rfl : j = handle := (h.owed _ hin).2 j slot hslot hslotcall
      rw [hcall]
      exact ⟨⟨slot, hslot, hslotcall⟩, hin, update_self .., hcall ▸ hthen⟩
    · obtain ⟨hslot, howed, hnone, hconts⟩ := h.table j e he
      exact ⟨hslot, howed, (update_of_ne (h.free hp j e he) ..).trans hnone, hconts⟩

theorem Owned.told (h : s.Owned) (call : Nat) (hother : ∀ entry ∈ s.waiting i, entry.call ≠ call) :
    (s.told call i).Owned where
  toHosted := ⟨h.fresh, h.slots, h.inj, h.owedOnce.sublist (List.erase_sublist.map _), fun x hx => h.owed x (List.mem_of_mem_erase hx)⟩
  owner := h.owner
  decode := h.decode
  waits := h.waits
  answered := h.answered
  table j entry hj := by
    obtain ⟨hslot, howed, hrest⟩ := h.table j entry hj
    refine ⟨hslot, (List.mem_erase_of_ne ?_).mpr howed, hrest⟩
    intro hsame
    obtain ⟨hcall, rfl⟩ := Prod.mk.inj hsame
    exact hother entry hj hcall

theorem Owned.read (h : s.Owned) {slot : Slot} (hi : s.host i = some slot) (p' : Option (Pending V))
    (hp' : ∀ q ∈ p', q = ⟨none, none⟩) :
    ({ s with
      host := update s.host i none
      waiting := update s.waiting i none
      pendings := update s.pendings slot.call p' } : World V).Owned := by
  have hcall : ∀ j slot', update s.host i none j = some slot' → slot'.call ≠ slot.call := by
    intro j slot' hj heq
    exact (of_update_none hj).1 (h.inj j i slot' slot (of_update_none hj).2 hi heq)
  have hlive : ∀ c q, update s.pendings slot.call p' c = some q → q = ⟨none, none⟩ ∧ c = slot.call ∨
      c ≠ slot.call ∧ s.pendings c = some q := by
    intro c q hq
    rcases of_update hq with ⟨hsame, hq⟩ | ⟨hsame, hq⟩
    · exact .inl ⟨hp' q hq, hsame⟩
    · exact .inr ⟨hsame, hq⟩
  refine ⟨⟨h.fresh, ?_, ?_, h.owedOnce, ?_⟩, ?_, ?_, ?_, ?_, ?_⟩
  · exact fun j slot' hj => h.slots j slot' (of_update_none hj).2
  · exact fun j j' slot' slot'' hj hj' => h.inj j j' slot' slot'' (of_update_none hj).2 (of_update_none hj').2
  · exact fun x hx => ⟨(h.owed x hx).1, fun j slot' hj => (h.owed x hx).2 j slot' (of_update_none hj).2⟩
  · intro j slot' hj
    obtain ⟨hne, hold⟩ := of_update_none hj
    rcases h.owner j slot' hold with ⟨q, hq, hwaits⟩ | ⟨e, he, hecall⟩
    · exact .inl ⟨q, (update_of_ne (hcall j slot' hj) ..).trans hq, hwaits⟩
    · exact .inr ⟨e, (update_of_ne hne ..).trans he, hecall⟩
  · intro c q hq
    rcases hlive c q hq with ⟨rfl, rfl⟩ | ⟨-, hold⟩
    · exact ⟨(h.slots i slot hi).1, by simp⟩
    · exact h.decode c q hold
  · intro c q hq j hj
    rcases hlive c q hq with ⟨rfl, -⟩ | ⟨hne, hold⟩
    · exact nomatch hj
    · obtain ⟨slot', hslot', hslotcall⟩ := h.waits c q hold j hj
      have hji : j ≠ i := by
        rintro rfl
        obtain rfl := Option.mem_unique hi hslot'
        exact hne hslotcall.symm
      exact ⟨slot', (update_of_ne hji ..).trans hslot', hslotcall⟩
  · intro c q r hq hr
    rcases hlive c q hq with ⟨rfl, -⟩ | ⟨-, hold⟩
    · exact nomatch hr
    · exact h.answered c q r hold hr
  · intro j e he
    replace he : update s.waiting i none j = some e := he
    have hji : j ≠ i := by
      rintro rfl
      rw [update_self] at he
      exact nomatch he
    rw [update_of_ne hji] at he
    obtain ⟨⟨slot', hslot', hslotcall⟩, howed, hnone, hthen⟩ := h.table j e he
    have hlive' : update s.host i none j = some slot' := (update_of_ne hji ..).trans hslot'
    have hne : e.call ≠ slot.call := hslotcall ▸ hcall j slot' hlive'
    exact ⟨⟨slot', hlive', hslotcall⟩, howed, (update_of_ne hne ..).trans hnone, hthen⟩

theorem Owned.answeredAtOnce (h : s.Owned) (r : Except Refused Bytes) : (s.answeredAtOnce r).Owned := by
  have hanswers : ∀ c < s.calls, update s.answers s.calls (some r) c = s.answers c := fun c hc => update_of_ne hc.ne ..
  refine ⟨⟨?_, ?_, h.inj, h.owedOnce, ?_⟩, h.owner, ?_, h.waits, ?_, h.table⟩
  · intro c hc
    replace hc : s.calls + 1 ≤ c := hc
    exact (update_of_ne (by omega) ..).trans (h.fresh c (by omega))
  · intro i slot hi
    obtain ⟨hlt, hslot⟩ := h.slots i slot hi
    exact ⟨Nat.lt_succ_of_lt hlt, (hanswers slot.call hlt).trans hslot⟩
  · exact fun x hx => ⟨Nat.lt_succ_of_lt (h.owed x hx).1, (h.owed x hx).2⟩
  · exact fun c p hp => ⟨Nat.lt_succ_of_lt (h.decode c p hp).1, (h.decode c p hp).2⟩
  · exact fun c p r' hp hr => (hanswers c (h.decode c p hp).1).trans (h.answered c p r' hp hr)

theorem Owned.issue (h : s.Owned) (hfree : s.host i = none) {p' : Option (Pending V)} {entry : Option (Entry V)}
    (hmine : (∃ decode, p' = some ⟨some (.waiting i), some decode⟩) ∧ entry = none ∨ p' = none ∧ entry = some ⟨s.calls, none⟩) :
    ({ s.issued i with
      pendings := update s.pendings s.calls p'
      waiting := update s.waiting i entry } : World V).Owned := by
  have hanswers : ∀ c < s.calls, update s.answers s.calls none c = s.answers c := fun c hc => update_of_ne hc.ne ..
  have hentry : ∀ j e, s.waiting j = some e → j ≠ i := by
    rintro j e he rfl
    obtain ⟨slot, hj, -⟩ := (h.table j e he).1
    rw [hfree] at hj
    exact nomatch hj
  have hnew : update s.host i (some ⟨s.calls, none⟩) i = some ⟨s.calls, none⟩ := update_self ..
  refine ⟨⟨?_, ?_, ?_, ?_, ?_⟩, ?_, ?_, ?_, ?_, ?_⟩
  · intro c hc
    replace hc : s.calls + 1 ≤ c := hc
    exact (update_of_ne (by omega) ..).trans (h.fresh c (by omega))
  · intro j slot hj
    rcases of_update_some hj with ⟨-, rfl⟩ | ⟨-, hold⟩
    · exact ⟨Nat.lt_succ_self _, update_self ..⟩
    · obtain ⟨hlt, hans⟩ := h.slots j slot hold
      exact ⟨Nat.lt_succ_of_lt hlt, (hanswers slot.call hlt).trans hans⟩
  · intro j j' slot slot' hj hj' heq
    rcases of_update_some hj with ⟨rfl, rfl⟩ | ⟨-, hold⟩ <;> rcases of_update_some hj' with ⟨rfl, rfl⟩ | ⟨-, hold'⟩
    · rfl
    · exact ((h.slots j' slot' hold').1.ne heq.symm).elim
    · exact ((h.slots j slot hold).1.ne heq).elim
    · exact h.inj j j' slot slot' hold hold' heq
  · refine List.nodup_cons.mpr ⟨fun hin => ?_, h.owedOnce⟩
    obtain ⟨x, hx, hcall⟩ := List.mem_map.mp hin
    exact (h.owed x hx).1.ne hcall
  · intro x hx
    rcases List.mem_cons.mp hx with rfl | hold
    · refine ⟨Nat.lt_succ_self _, fun j slot hj hcall => ?_⟩
      rcases of_update_some hj with ⟨rfl, -⟩ | ⟨-, hold⟩
      · rfl
      · exact ((h.slots j slot hold).1.ne hcall).elim
    · obtain ⟨hlt, howed⟩ := h.owed x hold
      refine ⟨Nat.lt_succ_of_lt hlt, fun j slot hj hcall => ?_⟩
      rcases of_update_some hj with ⟨-, rfl⟩ | ⟨-, hold'⟩
      · exact (hlt.ne hcall.symm).elim
      · exact howed j slot hold' hcall
  · intro j slot hj
    rcases of_update_some hj with ⟨rfl, rfl⟩ | ⟨hne, hold⟩
    · rcases hmine with ⟨⟨decode, rfl⟩, -⟩ | ⟨-, rfl⟩
      · exact .inl ⟨_, update_self .., rfl⟩
      · exact .inr ⟨_, update_self .., rfl⟩
    · rcases h.owner j slot hold with ⟨q, hq, hwaits⟩ | ⟨e, he, hecall⟩
      · exact .inl ⟨q, (update_of_ne (h.slots j slot hold).1.ne ..).trans hq, hwaits⟩
      · exact .inr ⟨e, (update_of_ne hne ..).trans he, hecall⟩
  · intro c q hq
    rcases of_update hq with ⟨rfl, rfl⟩ | ⟨-, hold⟩
    · obtain ⟨⟨decode, hq⟩, -⟩ | ⟨hnone, -⟩ := hmine
      · obtain rfl := Option.some.inj hq
        exact ⟨Nat.lt_succ_self _, by simp⟩
      · exact nomatch hnone
    · exact ⟨Nat.lt_succ_of_lt (h.decode c q hold).1, (h.decode c q hold).2⟩
  · intro c q hq j hj
    rcases of_update hq with ⟨rfl, rfl⟩ | ⟨-, hold⟩
    · obtain ⟨⟨decode, hq⟩, -⟩ | ⟨hnone, -⟩ := hmine
      · obtain rfl := Option.some.inj hq
        obtain rfl := Option.some.inj hj
        exact ⟨_, hnew, rfl⟩
      · exact nomatch hnone
    · obtain ⟨slot, hslot', hslotcall⟩ := h.waits c q hold j hj
      have hji : j ≠ i := by
        rintro rfl
        rw [hfree] at hslot'
        exact nomatch hslot'
      exact ⟨slot, (update_of_ne hji ..).trans hslot', hslotcall⟩
  · intro c q r hq hr
    rcases of_update hq with ⟨rfl, rfl⟩ | ⟨-, hold⟩
    · obtain ⟨⟨decode, hq⟩, -⟩ | ⟨hnone, -⟩ := hmine
      · obtain rfl := Option.some.inj hq
        exact nomatch hr
      · exact nomatch hnone
    · exact (hanswers c (h.decode c q hold).1).trans (h.answered c q r hold hr)
  · intro j e he
    replace he : update s.waiting i entry j = some e := he
    rcases of_update he with ⟨rfl, hmade⟩ | ⟨hsame, he⟩
    · obtain ⟨-, rfl⟩ | ⟨rfl, hentry'⟩ := hmine
      · exact nomatch hmade
      · obtain rfl := Option.mem_unique hentry' hmade
        exact ⟨⟨_, hnew, rfl⟩, List.mem_cons_self, update_self .., by simp⟩
    · obtain ⟨⟨slot, hslot', hslotcall⟩, howed, hnone, hthen⟩ := h.table j e he
      have hlt : e.call ≠ s.calls := hslotcall ▸ (h.slots j slot hslot').1.ne
      exact ⟨⟨slot, (update_of_ne hsame ..).trans hslot', hslotcall⟩, List.mem_cons_of_mem _ howed,
        (update_of_ne hlt ..).trans hnone, hthen⟩

theorem Owned.same (h : s.Owned) (hhost : t.host = s.host) (hcalls : t.calls = s.calls) (hanswers : t.answers = s.answers)
    (hwaiting : t.waiting = s.waiting) (hpendings : t.pendings = s.pendings) (howed : t.owed = s.owed) : t.Owned := by
  obtain ⟨_, _, _, _, _, _, _, _, _, _, _, _, _, _, _⟩ := t
  dsimp only at hhost hcalls hanswers hwaiting hpendings howed
  subst hhost hcalls hanswers hwaiting hpendings howed
  exact ⟨⟨h.fresh, h.slots, h.inj, h.owedOnce, h.owed⟩, h.owner, h.decode, h.waits, h.answered, h.table⟩

theorem run_eq (s : World V) (task : Task V) : ∃ failures : List (Nat × Refused), s.run task = { s with
    runs := ⟨task.continuation.call, task.reply, task.reply.bind task.continuation.decode, s.draining⟩ :: s.runs
    failures := failures } := by
  unfold run
  dsimp only
  split
  · exact ⟨_, rfl⟩
  · exact ⟨s.failures, rfl⟩

theorem Owned.resolve (h : s.Owned) (bytes : Bytes) (hi : s.host i = some ⟨call, none⟩) :
    ({ s with
      host := update s.host i (some ⟨call, some bytes⟩)
      answers := update s.answers call (some (.ok bytes)) } : World V).Owned := by
  obtain ⟨hlt, hnone⟩ := h.slots i _ hi
  dsimp only at hlt hnone
  -- The handle answers the call it answered.
  have hslot : ∀ j slot, update s.host i (some ⟨call, some bytes⟩) j = some slot →
      ∃ old, s.host j = some old ∧ old.call = slot.call ∧ (j = i ∧ slot = ⟨call, some bytes⟩ ∨ j ≠ i ∧ slot = old) := by
    intro j slot hj
    rcases of_update_some hj with ⟨hsame, rfl⟩ | ⟨hsame, hj⟩
    · exact ⟨⟨call, none⟩, hsame ▸ hi, rfl, .inl ⟨hsame, rfl⟩⟩
    · exact ⟨slot, hj, rfl, .inr ⟨hsame, rfl⟩⟩
  have hnew : ∀ j old, s.host j = some old → ∃ slot, update s.host i (some ⟨call, some bytes⟩) j = some slot ∧ slot.call = old.call := by
    intro j old hj
    by_cases hsame : j = i
    · subst hsame
      obtain rfl := Option.mem_unique hi hj
      exact ⟨_, update_self .., rfl⟩
    · exact ⟨old, (update_of_ne hsame ..).trans hj, rfl⟩
  refine ⟨⟨?_, ?_, ?_, h.owedOnce, ?_⟩, ?_, h.decode, ?_, ?_, ?_⟩
  · intro c hc
    exact (update_of_ne (hlt.trans_le hc).ne' ..).trans (h.fresh c hc)
  · intro j slot hj
    obtain ⟨old, hold, -, ⟨-, rfl⟩ | ⟨hne, rfl⟩⟩ := hslot j slot hj
    · exact ⟨hlt, update_self ..⟩
    · have hcall : slot.call ≠ call := fun heq => hne (h.inj j i slot _ hold hi heq)
      exact ⟨(h.slots j slot hold).1, (update_of_ne hcall ..).trans (h.slots j slot hold).2⟩
  · intro j j' slot slot' hj hj' heq
    obtain ⟨old, hold, hcall, -⟩ := hslot j slot hj
    obtain ⟨old', hold', hcall', -⟩ := hslot j' slot' hj'
    exact h.inj j j' old old' hold hold' (hcall.trans (heq.trans hcall'.symm))
  · refine fun x hx => ⟨(h.owed x hx).1, fun j slot hj heq => ?_⟩
    obtain ⟨old, hold, hcall, -⟩ := hslot j slot hj
    exact (h.owed x hx).2 j old hold (hcall.trans heq)
  · intro j slot hj
    obtain ⟨old, hold, hcall, -⟩ := hslot j slot hj
    rw [← hcall]
    exact h.owner j old hold
  · intro c p hp j hj
    obtain ⟨old, hold, hcall⟩ := h.waits c p hp j hj
    obtain ⟨slot, hslot', hslotcall⟩ := hnew j old hold
    exact ⟨slot, hslot', hslotcall.trans hcall⟩
  · intro c p r hp hr
    have hanswered := h.answered c p r hp hr
    have hne : c ≠ call := by
      rintro rfl
      rw [hnone] at hanswered
      exact nomatch hanswered
    exact (update_of_ne hne ..).trans hanswered
  · intro j e he
    obtain ⟨⟨old, hold, hcall⟩, hrest⟩ := h.table j e he
    obtain ⟨slot, hslot', hslotcall⟩ := hnew j old hold
    exact ⟨⟨slot, hslot', hslotcall.trans hcall⟩, hrest⟩

theorem Owned.collectEntry (h : s.Owned) {call : Nat} {i : Int} {entry : Entry V} {reply : Option Bytes}
    (hw : s.waiting i = some entry) (hi : s.host i = some ⟨entry.call, reply⟩) :
    ({ s.told call i with host := update s.host i none, waiting := update s.waiting i none } : World V).Owned := by
  have hread := h.read hi none nofun
  have hnone : s.pendings entry.call = none := (h.table i entry hw).2.2.1
  refine (hread.told call ?_).same rfl rfl rfl rfl ?_ rfl
  · intro e he
    replace he : update s.waiting i none i = some e := he
    rw [update_self] at he
    exact nomatch he
  · show s.pendings = update s.pendings entry.call none
    rw [← hnone, update_eq_self]

theorem owned_moves (h : s.Owned) (hmove : Moves s t) : t.Owned := by
  have hcalls : ∀ r : Except Refused Bytes, ∀ i entry, (s.answeredAtOnce r).waiting i = some entry → entry.call ≠ s.calls := by
    intro r i entry hi
    obtain ⟨⟨slot, hslot, hcall⟩, -⟩ := h.table i entry hi
    exact hcall ▸ (h.slots i slot hslot).1.ne
  have hnew : s.pendings s.calls = none := by
    cases hp : s.pendings s.calls with
    | none => rfl
    | some p => exact absurd (h.decode _ p hp).1 (Nat.lt_irrefl _)
  have hwait : ∀ {i}, s.host i = none → s.waiting i = none := by
    intro i hi
    cases hw : s.waiting i with
    | none => rfl
    | some entry =>
      obtain ⟨⟨slot, hslot, -⟩, -⟩ := h.table i entry hw
      rw [hi] at hslot
      exact nomatch hslot
  cases hmove with
  | stay => exact h
  | trap => exact h.same rfl rfl rfl rfl rfl rfl
  | resolve bytes hh => exact h.resolve bytes hh
  | startDone r decode =>
    refine (h.answeredAtOnce r).own _ (Nat.lt_succ_self _) (hcalls r) ?_ ?_
    · show (s.pendings s.calls).bind Pending.handle = none
      rw [hnew, Option.bind_none]
    · rintro q hq
      obtain rfl := Option.some.inj hq
      refine ⟨by simp, fun r' hr' => ?_⟩
      obtain rfl : r = r' := by simpa using hr'
      exact update_self ..
  | @startPending i hpos hfree decode =>
    refine (h.issue hfree (.inl ⟨⟨decode, rfl⟩, rfl⟩)).same rfl rfl rfl ?_ rfl rfl
    show s.waiting = update s.waiting i none
    rw [← hwait hfree, update_eq_self]
  | nowDone r =>
    have hown := (h.answeredAtOnce r).own none (Nat.lt_succ_self _) (hcalls r) (by
      show (s.pendings s.calls).bind Pending.handle = none
      rw [hnew, Option.bind_none]) nofun
    exact hown.same rfl rfl rfl rfl rfl rfl
  | nowPending hpos hfree => exact (h.issue hfree (.inr ⟨rfl, rfl⟩)).same rfl rfl rfl rfl rfl rfl
  | @map call state decode hp decode' =>
    refine h.own _ (h.decode _ _ hp).1 (h.free hp) (by rw [hp]; rfl) ?_
    intro q hq
    obtain rfl := Option.some.inj hq
    exact ⟨by simpa using (h.decode _ _ hp).2, fun r hr => h.answered _ _ r hp hr⟩
  | taken hp =>
    refine h.own _ (h.decode _ _ hp).1 (h.free hp) (by rw [hp]; rfl) ?_
    intro q hq
    obtain rfl := Option.some.inj hq
    exact ⟨by simp, nofun⟩
  | @polled call i decode bytes hp hh =>
    refine (h.read hh (some ⟨none, none⟩) (by simp)).same rfl rfl rfl ?_ rfl rfl
    have hnone : s.waiting i = none := by
      cases hw : s.waiting i with
      | none => rfl
      | some entry =>
        obtain ⟨⟨slot, hslot, hcall⟩, -⟩ := h.table i entry hw
        obtain rfl := Option.mem_unique hh hslot
        exact (h.free hp i entry hw hcall.symm).elim
    show s.waiting = update s.waiting i none
    rw [← hnone, update_eq_self]
  | released hp hnone failures =>
    have hown := h.own none (h.decode _ _ hp).1 (h.free hp) (by rw [hp]; exact hnone) nofun
    exact hown.same rfl rfl rfl rfl rfl rfl
  | thenDone hp =>
    have hown := h.own none (h.decode _ _ hp).1 (h.free hp) (by rw [hp]; rfl) nofun
    exact hown.same rfl rfl rfl rfl rfl rfl
  | @thenWaits call i decode hp howes kind =>
    have hover := h.handOver hp rfl howes ⟨call, some ⟨call, kind, decode⟩⟩ rfl (by simp)
    exact hover.same rfl rfl rfl rfl rfl rfl
  | @dropWaits call i decode hp howes =>
    have hover := h.handOver hp rfl howes ⟨call, none⟩ rfl nofun
    exact hover.same rfl rfl rfl rfl rfl rfl
  | passed howed hnone =>
    refine h.told _ fun entry he => ?_
    rw [hnone] at he
    exact nomatch he
  | @again call other i howed hin hh =>
    refine h.told _ fun entry he => ?_
    rintro rfl
    obtain ⟨⟨slot, hslot, hcall⟩, -⟩ := h.table _ entry he
    obtain rfl := Option.mem_unique hh hslot
    have hans := (h.slots _ _ hh).2
    rw [hcall] at hans
    rw [hans] at hin
    exact nomatch hin
  | discarded howed hin hw hh hthen => exact (h.collectEntry hw hh).same rfl rfl rfl rfl rfl rfl
  | replied howed hin hw hh hthen => exact (h.collectEntry hw hh).same rfl rfl rfl rfl rfl rfl
  | drain => exact h.same rfl rfl rfl rfl rfl rfl
  | @ran task ready hdrain hready =>
    obtain ⟨failures, hrun⟩ := run_eq { s with ready := ready } task
    rw [hrun]
    exact h.same rfl rfl rfl rfl rfl rfl
  | drained hready => exact h.same rfl rfl rfl rfl rfl rfl

/-! ## Each continuation is given its reply -/

/-- Calls whose continuation is queued or has run. -/
def taken (s : World V) : List Nat := s.ready.map (·.continuation.call) ++ s.runs.map Run.call

def Awaits (s : World V) (call : Nat) : Prop :=
  ∃ i entry, s.waiting i = some entry ∧ entry.call = call ∧ entry.then_.isSome = true

structure Given (s : World V) : Prop where
  once : s.taken.Nodup
  gone : ∀ call ∈ s.taken, call < s.calls ∧ s.pendings call = none ∧ ∀ i entry, s.waiting i = some entry → entry.call ≠ call
  attached : ∀ call ∈ s.attached, call ∈ s.taken ∨ s.Awaits call
  tasks : ∀ task ∈ s.ready, s.answers task.continuation.call = some task.reply
  runs : ∀ run ∈ s.runs, s.answers run.call = some run.reply ∧ run.inDrain = true
  deliveries : ∀ d ∈ s.deliveries, s.answers d.call = some d.reply
  drained : ∀ call ∈ s.drained, call ∈ s.runs.map Run.call
  released : ∀ call ∈ s.released, call < s.calls ∧ s.pendings call = none

/-- From `s` to `t` the continuations of `new` are queued, and nothing that was given is taken back. -/
structure Grows (s t : World V) (new : List Nat) : Prop where
  taken : t.taken.Perm (new ++ s.taken)
  fresh : new.Nodup ∧ ∀ call ∈ new, call ∉ s.taken ∧ call < t.calls ∧ t.pendings call = none ∧
    ∀ i entry, t.waiting i = some entry → entry.call ≠ call
  calls : s.calls ≤ t.calls := by exact le_rfl
  answers : ∀ call r, s.answers call = some r → t.answers call = some r := by exact fun _ _ h => h
  pendings : ∀ call < s.calls, s.pendings call = none → t.pendings call = none := by exact fun _ _ h => h
  entries : ∀ i entry, t.waiting i = some entry → s.waiting i = some entry ∨ entry.call ∉ s.taken := by exact fun _ _ h => .inl h
  kept : ∀ i entry, s.waiting i = some entry → entry.then_.isSome = true → t.waiting i = some entry ∨ entry.call ∈ new := by
    exact fun _ _ h _ => .inl h
  attached : ∀ call ∈ t.attached, call ∈ s.attached ∨ call ∈ new ∨ t.Awaits call := by exact fun _ h => .inl h
  tasks : ∀ task ∈ t.ready, task ∈ s.ready ∨ t.answers task.continuation.call = some task.reply := by exact fun _ h => .inl h
  ran : ∀ run ∈ s.runs, run ∈ t.runs := by exact fun _ h => h
  runs : ∀ run ∈ t.runs, run ∈ s.runs ∨ t.answers run.call = some run.reply ∧ run.inDrain = true := by exact fun _ h => .inl h
  deliveries : ∀ d ∈ t.deliveries, d ∈ s.deliveries ∨ t.answers d.call = some d.reply := by exact fun _ h => .inl h
  drained : ∀ call ∈ t.drained, call ∈ s.drained ∨ call ∈ t.runs.map Run.call := by exact fun _ h => .inl h
  released : ∀ call ∈ t.released, call ∈ s.released ∨ call < t.calls ∧ t.pendings call = none := by exact fun _ h => .inl h

theorem Given.grow (h : s.Given) {new : List Nat} (hg : Grows s t new) : t.Given where
  once := by
    rw [hg.taken.nodup_iff, List.nodup_append]
    refine ⟨hg.fresh.1, h.once, fun call hnew other hold => ?_⟩
    rintro rfl
    exact (hg.fresh.2 call hnew).1 hold
  gone call hcall := by
    rcases List.mem_append.mp (hg.taken.mem_iff.mp hcall) with hnew | hold
    · exact (hg.fresh.2 call hnew).2
    · obtain ⟨hlt, hnone, hfree⟩ := h.gone call hold
      refine ⟨hlt.trans_le hg.calls, hg.pendings call hlt hnone, fun i entry hi => ?_⟩
      rcases hg.entries i entry hi with hwas | hnot
      · exact hfree i entry hwas
      · rintro rfl
        exact hnot hold
  attached call hcall := by
    have htaken : ∀ c, c ∈ new ∨ c ∈ s.taken → c ∈ t.taken := fun c hc => hg.taken.mem_iff.mpr (List.mem_append.mpr hc)
    rcases hg.attached call hcall with hold | hnew | hawaits
    · rcases h.attached call hold with hin | ⟨i, entry, hi, rfl, hthen⟩
      · exact .inl (htaken call (.inr hin))
      · exact (hg.kept i entry hi hthen).symm.imp (fun hin => htaken _ (.inl hin)) fun hkept => ⟨i, entry, hkept, rfl, hthen⟩
    · exact .inl (htaken call (.inl hnew))
    · exact .inr hawaits
  tasks task htask := (hg.tasks task htask).elim (fun hold => hg.answers _ _ (h.tasks task hold)) id
  runs run hrun := (hg.runs run hrun).elim (fun hold => ⟨hg.answers _ _ (h.runs run hold).1, (h.runs run hold).2⟩) id
  deliveries d hd := (hg.deliveries d hd).elim (fun hold => hg.answers _ _ (h.deliveries d hold)) id
  drained call hcall := by
    rcases hg.drained call hcall with hold | hnew
    · obtain ⟨run, hrun, rfl⟩ := List.mem_map.mp (h.drained call hold)
      exact List.mem_map.mpr ⟨run, hg.ran run hrun, rfl⟩
    · exact hnew
  released call hcall := by
    rcases hg.released call hcall with hold | hnew
    · obtain ⟨hlt, hnone⟩ := h.released call hold
      exact ⟨hlt.trans_le hg.calls, hg.pendings call hlt hnone⟩
    · exact hnew

theorem Given.not_taken (h : s.Given) {call : Nat} {p : Pending V} (hp : s.pendings call = some p) : call ∉ s.taken := by
  intro hin
  have hnone := (h.gone call hin).2.1
  rw [hp] at hnone
  exact nomatch hnone

theorem grows_release (hlt : call < s.calls) :
    ∀ c ∈ call :: s.released, c ∈ s.released ∨ c < s.calls ∧ update s.pendings call none c = none := by
  rintro c (_ | ⟨_, hold⟩)
  · exact .inr ⟨hlt, update_self ..⟩
  · exact .inl hold

theorem update_none {p' : Option (Pending V)} (h : s.pendings call ≠ none ∨ p' = none) :
    ∀ c < s.calls, s.pendings c = none → update s.pendings call p' c = none := by
  intro c _ hc
  by_cases hsame : c = call
  · rw [hsame, update_self]
    exact h.resolve_left fun hne => hne (hsame ▸ hc)
  · rw [update_of_ne hsame, hc]

theorem none_fresh (s t : World V) : ([] : List Nat).Nodup ∧ ∀ call ∈ ([] : List Nat), call ∉ s.taken ∧ call < t.calls ∧
    t.pendings call = none ∧ ∀ i entry, t.waiting i = some entry → entry.call ≠ call :=
  ⟨List.nodup_nil, nofun⟩

theorem entries_wait {i : Int} {entry : Entry V} (hnot : entry.call ∉ s.taken) :
    ∀ j e, update s.waiting i (some entry) j = some e → s.waiting j = some e ∨ e.call ∉ s.taken := by
  intro j e he
  rcases of_update_some he with ⟨-, rfl⟩ | ⟨-, he⟩
  · exact .inr hnot
  · exact .inl he

theorem kept_wait {i : Int} {entry : Entry V} (hnone : s.waiting i = none) :
    ∀ j e, s.waiting j = some e → e.then_.isSome = true → update s.waiting i (some entry) j = some e ∨ e.call ∈ ([] : List Nat) := by
  intro j e he _
  have hne : j ≠ i := by
    rintro rfl
    rw [hnone] at he
    exact nomatch he
  exact .inl ((update_of_ne hne ..).trans he)

theorem Owned.waiting_none (h : s.Owned) {call : Nat} {p : Pending V} {i : Int} (hp : s.pendings call = some p)
    (hi : p.handle = some i) : s.waiting i = none := by
  cases hw : s.waiting i with
  | none => rfl
  | some entry =>
    obtain ⟨⟨slot, hslot, hcall⟩, -⟩ := h.table i entry hw
    obtain ⟨slot', hslot', hcall'⟩ := h.waits call p hp i hi
    obtain rfl := Option.mem_unique hslot hslot'
    exact (h.free hp i entry hw (hcall.symm.trans hcall')).elim

theorem answers_new (h : s.Owned) (r : Option (Except Refused Bytes)) :
    ∀ c r', s.answers c = some r' → update s.answers s.calls r c = some r' := by
  intro c r' hc
  have hne : c ≠ s.calls := by
    rintro rfl
    rw [h.fresh _ le_rfl] at hc
    exact nomatch hc
  rw [update_of_ne hne, hc]

theorem grows_collect (ho : s.Owned) (h : s.Given) (call : Nat) {i : Int} {entry : Entry V} {bytes : Bytes}
    (hw : s.waiting i = some entry) (hh : s.host i = some ⟨entry.call, some bytes⟩) (task : Option (Task V))
    (htask : task = entry.then_.map fun c => ⟨c, .ok bytes⟩) :
    Grows s { ({ s.told call i with waiting := update s.waiting i none } : World V).collect entry.call i bytes with
      ready := s.ready ++ task.toList } (task.toList.map (·.continuation.call)) := by
  obtain ⟨⟨slot, hslot, hcall⟩, howed, hnone, hthen⟩ := ho.table i entry hw
  have hans : s.answers entry.call = some (.ok bytes) := (ho.slots i _ hh).2
  have hlt : entry.call < s.calls := (ho.slots i _ hh).1
  have hmine : ∀ t ∈ task.toList, t.continuation.call = entry.call ∧ t.reply = .ok bytes := by
    intro t ht
    rw [htask] at ht
    obtain ⟨c, hc, rfl⟩ := Option.map_eq_some_iff.mp (Option.mem_toList.mp ht)
    exact ⟨hthen c hc, rfl⟩
  have hnot : entry.call ∉ s.taken := fun hin => (h.gone _ hin).2.2 i entry hw rfl
  have hentries : ∀ j e, update s.waiting i none j = some e → j ≠ i ∧ s.waiting j = some e := by
    intro j e he
    obtain ⟨hsame, he⟩ := of_update_none he
    exact ⟨hsame, he⟩
  constructor
  · show ((s.ready ++ task.toList).map _ ++ s.runs.map Run.call).Perm _
    rw [List.map_append, List.append_assoc]
    exact List.perm_append_comm_assoc ..
  · refine ⟨?_, fun c hc => ?_⟩
    · cases task with
      | none => exact List.nodup_nil
      | some t => exact List.nodup_singleton _
    · obtain ⟨t, ht, rfl⟩ := List.mem_map.mp hc
      rw [(hmine t ht).1]
      refine ⟨hnot, hlt, hnone, fun j e he heq => ?_⟩
      obtain ⟨hne, hold⟩ := hentries j e he
      obtain ⟨⟨slot', hslot', hcall'⟩, -⟩ := ho.table j e hold
      exact hne (ho.inj j i slot' _ hslot' hh (hcall'.trans heq))
  · exact le_rfl
  · exact fun _ _ hc => hc
  · exact fun _ _ hc => hc
  · exact fun j e he => .inl (hentries j e he).2
  · intro j e he hsome
    by_cases hsame : j = i
    · subst hsame
      obtain rfl := Option.mem_unique hw he
      obtain ⟨c, hc⟩ := Option.isSome_iff_exists.mp hsome
      refine .inr (List.mem_map.mpr ⟨⟨c, .ok bytes⟩, ?_, hthen c hc⟩)
      rw [htask, hc]
      exact List.mem_singleton.mpr rfl
    · exact .inl ((update_of_ne hsame ..).trans he)
  · exact fun _ hc => .inl hc
  · intro t ht
    refine (List.mem_append.mp ht).imp_right fun hnew => ?_
    rw [(hmine t hnew).1, (hmine t hnew).2]
    exact hans
  · exact fun _ hc => hc
  · exact fun _ hc => .inl hc
  · rintro d (_ | ⟨_, hold⟩)
    · exact .inr hans
    · exact .inl hold
  · exact fun _ hc => .inl hc
  · exact fun _ hc => .inl hc

theorem given_moves (ho : s.Owned) (h : s.Given) (hmove : Moves s t) : t.Given := by
  have hnew : s.calls ∉ s.taken := fun hin => Nat.lt_irrefl _ (h.gone _ hin).1
  have hpendings : ∀ p' : Option (Pending V), ∀ c < s.calls, s.pendings c = none → update s.pendings s.calls p' c = none :=
    fun p' c hc hnone => (update_of_ne hc.ne ..).trans hnone
  have hanswered : ∀ r, ∀ d ∈ (⟨s.calls, r⟩ :: s.deliveries : List Delivery), d ∈ s.deliveries ∨
      update s.answers s.calls (some r) d.call = some d.reply := by
    rintro r d (_ | ⟨_, hold⟩)
    · exact .inr (update_self ..)
    · exact .inl hold
  have hreleased : ∀ c ∈ s.calls :: s.released, c ∈ s.released ∨ c < s.calls + 1 ∧ update s.pendings s.calls none c = none := by
    rintro c (_ | ⟨_, hold⟩)
    · exact .inr ⟨Nat.lt_succ_self _, update_self ..⟩
    · exact .inl hold
  cases hmove with
  | stay => exact h
  | trap => exact h.grow { taken := .refl _, fresh := none_fresh .. }
  | @resolve i call bytes hh =>
    refine h.grow { taken := .refl _, fresh := none_fresh .., answers := fun c r hc => ?_ }
    have hne : c ≠ call := by
      rintro rfl
      rw [(ho.slots i _ hh).2] at hc
      exact nomatch hc
    exact (update_of_ne hne ..).trans hc
  | startDone r decode =>
    exact h.grow {
      taken := .refl _
      fresh := none_fresh ..
      calls := Nat.le_succ _
      answers := answers_new ho _
      pendings := hpendings _
      deliveries := hanswered r }
  | startPending hpos hfree decode =>
    exact h.grow {
      taken := .refl _
      fresh := none_fresh ..
      calls := Nat.le_succ _
      answers := answers_new ho _
      pendings := hpendings _ }
  | nowDone r =>
    exact h.grow {
      taken := .refl _
      fresh := none_fresh ..
      calls := Nat.le_succ _
      answers := answers_new ho _
      pendings := hpendings _
      deliveries := hanswered r
      released := hreleased }
  | @nowPending i hpos hfree =>
    have hnone : s.waiting i = none := by
      cases hw : s.waiting i with
      | none => rfl
      | some entry =>
        obtain ⟨⟨slot, hslot, -⟩, -⟩ := ho.table i entry hw
        rw [hfree] at hslot
        exact nomatch hslot
    exact h.grow {
      taken := .refl _
      fresh := none_fresh ..
      calls := Nat.le_succ _
      answers := answers_new ho _
      pendings := hpendings _
      entries := entries_wait hnew
      kept := kept_wait hnone
      released := hreleased }
  | map hp decode' =>
    exact h.grow {
      taken := .refl _
      fresh := none_fresh ..
      pendings := update_none (.inl (by simp [hp])) }
  | taken hp =>
    exact h.grow {
      taken := .refl _
      fresh := none_fresh ..
      pendings := update_none (.inl (by simp [hp])) }
  | @polled call i decode bytes hp hh =>
    refine h.grow {
      taken := .refl _
      fresh := none_fresh ..
      pendings := update_none (.inl (by simp [hp]))
      deliveries := ?_ }
    rintro d (_ | ⟨_, hold⟩)
    · exact .inr (ho.slots i _ hh).2
    · exact .inl hold
  | released hp hnone failures =>
    exact h.grow {
      taken := .refl _
      fresh := none_fresh ..
      pendings := update_none (.inr rfl)
      released := grows_release (ho.decode _ _ hp).1 }
  | @thenDone call r decode hp =>
    refine h.grow (show Grows s _ [call] from {
      taken := ?_
      fresh := ⟨List.nodup_singleton _, fun c hc => ?_⟩
      pendings := update_none (.inr rfl)
      attached := ?_
      tasks := ?_
      released := grows_release (ho.decode _ _ hp).1 })
    · show ((s.ready ++ [_]).map _ ++ s.runs.map Run.call).Perm _
      rw [List.map_append, List.append_assoc]
      exact List.perm_append_comm_assoc ..
    · obtain rfl := List.mem_singleton.mp hc
      exact ⟨h.not_taken hp, (ho.decode _ _ hp).1, update_self .., ho.free hp⟩
    · rintro c (_ | ⟨_, hold⟩)
      · exact .inr (.inl (List.mem_singleton.mpr rfl))
      · exact .inl hold
    · intro task htask
      refine (List.mem_append.mp htask).imp_right fun hlast => ?_
      obtain rfl := List.mem_singleton.mp hlast
      exact ho.answered _ _ r hp rfl
  | @thenWaits call i decode hp howes kind =>
    refine h.grow {
      taken := .refl _
      fresh := none_fresh ..
      pendings := update_none (.inr rfl)
      entries := entries_wait (h.not_taken hp)
      kept := kept_wait (ho.waiting_none hp rfl)
      attached := ?_
      released := grows_release (ho.decode _ _ hp).1 }
    rintro c (_ | ⟨_, hold⟩)
    · exact .inr (.inr ⟨i, _, update_self .., rfl, rfl⟩)
    · exact .inl hold
  | dropWaits hp howes =>
    exact h.grow {
      taken := .refl _
      fresh := none_fresh ..
      pendings := update_none (.inr rfl)
      entries := entries_wait (h.not_taken hp)
      kept := kept_wait (ho.waiting_none hp rfl)
      released := grows_release (ho.decode _ _ hp).1 }
  | passed howed hnone => exact h.grow { taken := .refl _, fresh := none_fresh .. }
  | again howed hin hh => exact h.grow { taken := .refl _, fresh := none_fresh .. }
  | @discarded call i entry bytes howed hin hw hh hthen =>
    have hgrows := grows_collect ho h call hw hh none (by rw [hthen]; rfl)
    simp only [Option.toList_none, List.append_nil, List.map_nil] at hgrows
    exact h.grow hgrows
  | @replied call i entry bytes continuation howed hin hw hh hthen =>
    exact h.grow (grows_collect ho h call hw hh (some ⟨continuation, .ok bytes⟩) (by rw [hthen]; rfl))
  | drain => exact h.grow { taken := .refl _, fresh := none_fresh .. }
  | @ran task ready hdrain hready =>
    obtain ⟨failures, hrun⟩ := run_eq { s with ready := ready } task
    rw [hrun]
    refine h.grow {
      taken := ?_
      fresh := none_fresh ..
      tasks := fun t ht => .inl (hready ▸ List.mem_cons_of_mem _ ht)
      ran := fun run hin => List.mem_cons_of_mem _ hin
      runs := ?_ }
    · show (ready.map _ ++ _ :: s.runs.map Run.call).Perm (s.ready.map _ ++ s.runs.map Run.call)
      rw [hready]
      exact List.perm_middle
    · rintro run (_ | ⟨_, hold⟩)
      · exact .inr ⟨h.tasks task (hready ▸ List.mem_cons_self), hdrain⟩
      · exact .inl hold
  | drained hready =>
    refine h.grow { taken := .refl _, fresh := none_fresh .., drained := fun call hcall => .inr ?_ }
    obtain ⟨hin, hnot⟩ := List.mem_filter.mp hcall
    rw [decide_eq_true_iff] at hnot
    rcases h.attached call hin with htaken | ⟨i, entry, hi, rfl, -⟩
    · rcases List.mem_append.mp htaken with hqueued | hran
      · rw [hready] at hqueued
        exact nomatch hqueued
      · exact hran
    · exact (hnot (List.mem_map.mpr ⟨_, (ho.table i entry hi).2.1, rfl⟩)).elim

/-! ## The claim of the executor -/

/-- A continuation runs at most once, in a drain, with its own call's reply, and has run once that reply's
`ReplyReady` and a drain are over; no reply is another call's; and the handle of a `Pending` that was given away is
read. -/
structure EachOnce (s : World V) : Prop where
  once : ∀ call, (s.runs.map Run.call).count call ≤ 1
  own : ∀ run ∈ s.runs, s.answers run.call = some run.reply ∧ run.inDrain = true
  drained : ∀ call ∈ s.drained, (s.runs.map Run.call).count call = 1
  deliveries : ∀ d ∈ s.deliveries, s.answers d.call = some d.reply
  released : ∀ call ∈ s.released, ¬ s.Owes call → ∀ h slot, s.host h = some slot → slot.call ≠ call

theorem eachOnce (ho : s.Owned) (h : s.Given) : s.EachOnce where
  once := by
    have hnodup : (s.runs.map Run.call).Nodup := h.once.sublist (List.sublist_append_right _ _)
    exact fun call => List.nodup_iff_count_le_one.mp hnodup call
  own := h.runs
  drained call hcall := by
    have hnodup : (s.runs.map Run.call).Nodup := h.once.sublist (List.sublist_append_right _ _)
    exact List.count_eq_one_of_mem hnodup (h.drained call hcall)
  deliveries := h.deliveries
  released call hcall hnot i slot hi := by
    rintro rfl
    rcases ho.owner i slot hi with ⟨p, hp, -⟩ | ⟨entry, he, heq⟩
    · rw [(h.released _ hcall).2] at hp
      exact nomatch hp
    · have howed := (ho.table i entry he).2.1
      exact hnot (List.mem_map.mpr ⟨_, howed, heq⟩)

/-- Each reply reaches its own call once, as long as every `Pending` is given away before its handle's `ReplyReady`, and replies fit
in memory. -/
theorem replies_reach_once (s : World V) (run : Reaches step Meets (· = new) s) : s.EachOnce := by
  have h : s.Owned ∧ s.Given := by
    induction run with
    | start h =>
      subst h
      refine ⟨⟨⟨?_, ?_, ?_, ?_, ?_⟩, ?_, ?_, ?_, ?_, ?_⟩, ⟨?_, ?_, ?_, ?_, ?_, ?_, ?_, ?_⟩⟩
      all_goals simp [new, taken]
    | step _ act hmeets ih =>
      have hmove := step_moves ih.1 act hmeets
      exact ⟨owned_moves ih.1 hmove, given_moves ih.1 ih.2 hmove⟩
  exact eachOnce h.1 h.2

theorem replies_reach_once_early :
    let s := [Act.start Except.ok 1 none true, .then_ 0, .resolve 1 [7], .replyReady 0 1 true, .drain, .runTask,
      .drained].foldl step (new : World Bytes)
    s.EachOnce ∧ s.drained = [0] ∧ s.runs.map (fun run => (run.call, run.reply.toOption)) = [(0, some [7])] ∧ s.host 1 = none :=
  ⟨replies_reach_once _ (reaches_foldl (by decide +kernel)), by decide +kernel, by decide +kernel, by decide +kernel⟩

/-- The handle's `ReplyReady` comes before the continuation is attached, or the `Pending` dropped: the continuation never runs, and
the host's handle is never read. -/
theorem late_continuation_is_lost :
    let came := [Act.start Except.ok 1 none true, .resolve 1 [7], .replyReady 0 1 true].foldl step (new : World Bytes)
    let attached := [Act.then_ 0, .drain, .drained].foldl step came
    let dropped := [Act.drop 0, .drain, .drained].foldl step came
    (attached.drained = [0] ∧ attached.runs.map Run.call = [] ∧ ¬ attached.EachOnce) ∧
      dropped.released = [0] ∧ dropped.owed = [] ∧ dropped.host 1 = some ⟨0, some [7]⟩ ∧ ¬ dropped.EachOnce := by
  intro came attached dropped
  have hdrained : attached.drained = [0] := by decide +kernel
  have hruns : attached.runs.map Run.call = [] := by decide +kernel
  have hreleased : dropped.released = [0] := by decide +kernel
  have howed : dropped.owed = [] := by decide +kernel
  have hhost : dropped.host 1 = some ⟨0, some [7]⟩ := by decide +kernel
  refine ⟨⟨hdrained, hruns, fun h => ?_⟩, hreleased, howed, hhost, fun h => ?_⟩
  · have hone := h.drained 0 (by rw [hdrained]; exact List.mem_singleton.mpr rfl)
    rw [hruns] at hone
    exact nomatch hone
  · refine h.released 0 (by rw [hreleased]; exact List.mem_singleton.mpr rfl) ?_ 1 _ hhost rfl
    unfold Owes
    rw [howed]
    exact List.not_mem_nil

end World

end CitadelAgent.AppSdk
