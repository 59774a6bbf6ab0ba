import CitadelAgent.Conversations.Copies
import CitadelAgent.Conversations.Unread

/-!
# The delivery ladder

* `Climbs` : what one operation can make of a status, and `Climbs.delivered`, `Climbs.read` that nothing falls back;
* `Step`, `Lives` : operations of the store and of the engine, with the copy of a message there after each;
* `offered`, `Receives` : the statuses that calls bring to a copy, and `Receives.status` that they fold up to its last.
-/

namespace CitadelAgent.Conversations
open Store StoreRules Engine

/-- One status and the next, as anything writes it. -/
def Climbs (a b : MessageStatus) : Prop := b = a ∨ statusAdvances a b = true

variable {a b : MessageStatus} {c m m' : ConversationMessage} {s : Shared}

theorem Climbs.delivered (h : Relation.ReflTransGen Climbs a b) (ha : a = .delivered ∨ a = .read) :
    b = .delivered ∨ b = .read := by
  induction h with
  | refl => exact ha
  | tail _ hstep ih =>
    rcases hstep with rfl | hadvances
    · exact ih
    · rename_i x y _
      rcases ih with rfl | rfl <;> cases y <;> revert hadvances <;> decide

theorem Climbs.read (h : Relation.ReflTransGen Climbs a b) (ha : a = .read) : b = .read := by
  induction h with
  | refl => exact ha
  | tail _ hstep ih =>
    rcases hstep with rfl | hadvances
    · exact ih
    · rename_i x y _
      subst ih
      cases y <;> revert hadvances <;> decide

theorem StoreOp.climbs_changed {op : StoreOp} (h : op.changed m = some c) :
    Climbs m.status c.status := by
  unfold changed at h
  split at h
  · unfold statusSet at h
    split at h
    · next hadvances =>
      cases h
      exact .inr hadvances
    · cases h
  · next id p =>
    simp only [applyPatch] at h
    split at h
    · cases h
      dsimp only
      cases hp : p.status with
      | none => exact .inl (by simp)
      | some status =>
        simp only [Option.any_some, Option.getD_some]
        split
        · next hadvances => exact .inr hadvances
        · exact .inl rfl
    · cases h
  · obtain ⟨list, -, rfl⟩ := Option.map_eq_some_iff.mp h
    exact .inl rfl
  · split at h
    · cases h
      exact .inl rfl
    · cases h
  · cases h

theorem StoreOp.Makes.climbs {op : StoreOp} {own peer : Cid} {kv : Kv} (h : op.Makes own peer kv m m') : Climbs m.status m'.status := by
  rcases h with (rfl | rfl) | ⟨id, f, c, -, -, -, hc, rfl⟩ | ⟨now, -, -, hstatus, rfl⟩
  · exact .inl rfl
  · exact .inl rfl
  · have hclimbs := climbs_changed hc
    exact hclimbs
  · refine .inr ?_
    rw [hstatus]
    rfl

def StoreOp.SetsStatus : StoreOp → Prop
  | .setStatus .. | .patch .. | .markRead _ => True
  | _ => False

theorem StoreOp.Makes.status_eq {op : StoreOp} {own peer : Cid} {kv : Kv}
    (h : op.Makes own peer kv m m') (hop : ¬ op.SetsStatus) : m'.status = m.status := by
  rcases h with (rfl | rfl) | ⟨id, f, c, -, -, -, hc, rfl⟩ | ⟨now, rfl, -⟩
  · rfl
  · rfl
  · show c.status = m.status
    unfold StoreOp.changed at hc
    split at hc
    · exact absurd trivial hop
    · exact absurd trivial hop
    · obtain ⟨list, -, rfl⟩ := Option.map_eq_some_iff.mp hc
      rfl
    · split at hc
      · cases hc
        rfl
      · cases hc
    · cases hc
  · exact absurd trivial hop

/-! ## Runs -/

inductive Step
  | store (cid peer : Cid) (op : StoreOp)
  | engine (out : Outside) (k : Nat) (cid peer : Cid) (o : Operation)

def Step.apply : Step → Shared → Shared
  | .store cid peer op, s => { s with kv := (Kv.exec (op.program cid peer) s.kv).2 }
  | .engine out k cid peer o, s => (exec out (o.program cid peer) k s).2

inductive Lives (own peer : Cid) (n : UInt32) (id : String) (s : Shared) : Shared → Prop
  | refl : Lives own peer n id s s
  | step {s' : Shared} (h : Lives own peer n id s s') (a : Step)
    (hin : (copyOn (a.apply s').kv own peer n id).isSome = true) : Lives own peer n id s (a.apply s')

section

variable {own peer : Cid} {n : UInt32} {id : String}

theorem Step.reached (a : Step) (h : Reached s.kv) : Reached (a.apply s).kv := by
  cases a with
  | store cid q op => exact h.program cid q op
  | engine out k cid q o =>
    have hcalls := o.byStore out cid q k s
    exact h.trans (Relation.ReflTransGen.mono (fun _ _ hcall => ⟨cid, hcall⟩) _ _ hcalls)

theorem Step.climbs (a : Step) (h : Reached s.kv) (hm : copyOn s.kv own peer n id = some m)
    (hm' : copyOn (a.apply s).kv own peer n id = some m') :
    Relation.ReflTransGen Climbs m.status m'.status := by
  have hcall : ∀ kv cid q (op : StoreOp) m m', Reached kv → copyOn kv own peer n id = some m →
      copyOn (Kv.exec (op.program cid q) kv).2 own peer n id = some m' → Climbs m.status m'.status := by
    intro kv cid q op m m' hkv hm hm'
    rcases hkv.makes op hm hm' with rfl | ⟨-, -, hmade⟩
    · exact .inl rfl
    · exact hmade.climbs
  cases a with
  | store cid q op => exact .single (hcall s.kv cid q op m m' h hm hm')
  | engine out k cid q o =>
    have hchain := Operation.copies (o := o) (I := Reached) (R := fun m m' => Climbs m.status m'.status) (fun _ h => h)
      (fun kv q op hkv _ => hkv.program cid q op) (fun kv q op m m' hkv _ => hcall kv cid q op m m' hkv) h hm hm'
    exact Relation.ReflTransGen.lift ConversationMessage.status (fun _ _ h => h) _ _ hchain

theorem Lives.climbs {s' : Shared} (h : Lives own peer n id s s') (hs : Reached s.kv) (hm : copyOn s.kv own peer n id = some m)
    (hm' : copyOn s'.kv own peer n id = some m') :
    Reached s'.kv ∧ Relation.ReflTransGen Climbs m.status m'.status := by
  induction h generalizing m' with
  | refl =>
    rw [hm, Option.some.injEq] at hm'
    exact ⟨hs, hm' ▸ .refl⟩
  | step h a hin ih =>
    cases h with
    | refl => exact ⟨a.reached hs, a.climbs hs hm hm'⟩
    | step h b hin' =>
      obtain ⟨x, hx⟩ := Option.isSome_iff_exists.mp hin'
      obtain ⟨hreached, hclimbs⟩ := ih hx
      exact ⟨a.reached hreached, hclimbs.trans (a.climbs hreached hx hm')⟩

end

/-! ## In any order -/

def raise (current next : MessageStatus) : MessageStatus := if statusAdvances current next then next else current

/-- Whether the id finds its message on page `n`. -/
def findsOn (own peer : Cid) (n : UInt32) (kv : Kv) (id : String) : Bool :=
  match foundIn kv own peer id with
  | .ok (some f) => f.page.pageNumber = n
  | _ => false

/-- The status that a call brings to the copy on page `n`: what `set_status` or a patch says, when the id finds that copy,
and `read`, when `mark_read` marks it. -/
def offered (own peer : Cid) (n : UInt32) (id : String) (kv : Kv) : StoreOp → Option MessageStatus
  | .setStatus target status _ => if target = id ∧ findsOn own peer n kv id then some status else none
  | .patch target p => if target = id ∧ findsOn own peer n kv id then p.status else none
  | .markRead now =>
    if (copyOn kv own peer n id).map (·.status) = some .delivered ∧
      (copyOn (Kv.exec ((StoreOp.markRead now).program own peer) kv).2 own peer n id).map (·.status) = some .read
    then some .read else none
  | _ => none

/-- A run of calls on the store with the copy there after each, and the statuses brought to it. -/
inductive Receives (own peer : Cid) (n : UInt32) (id : String) (kv : Kv) : List MessageStatus → Kv → Prop
  | refl : Receives own peer n id kv [] kv
  | call {l : List MessageStatus} {kv' : Kv} (h : Receives own peer n id kv l kv') (op : StoreOp)
    (hin : (copyOn (Kv.exec (op.program own peer) kv').2 own peer n id).isSome = true) :
    Receives own peer n id kv (l ++ (offered own peer n id kv' op).toList) (Kv.exec (op.program own peer) kv').2
  | elsewhere {l : List MessageStatus} {kv' : Kv} (h : Receives own peer n id kv l kv') (own' peer' : Cid) (op : StoreOp)
    (hne : ¬ (own = own' ∧ peer = peer')) : Receives own peer n id kv l (Kv.exec (op.program own' peer') kv').2

section

variable {own peer : Cid} {n : UInt32} {id : String} {kv : Kv}

theorem status_update (h : Reached kv) {target : String} {change : ConversationMessage → Option ConversationMessage}
    (hsound : ∀ m c, m.Sound → change m = some c → c.Sound) (hid : ∀ m c, change m = some c → c.id = m.id)
    (hreached : Reached (Kv.exec (update own peer target change) kv).2) (hm : copyOn kv own peer n id = some m)
    (hm' : copyOn (Kv.exec (update own peer target change) kv).2 own peer n id = some m') :
    m'.status = if target = id ∧ findsOn own peer n kv id then ((change m).map (·.status)).getD m.status else m.status := by
  have hs := h.sited.2 own peer
  have hsame : (Kv.exec (update own peer target change) kv).2 = kv → m' = m := by
    intro hkv
    rw [hkv, hm, Option.some.injEq] at hm'
    exact hm'.symm
  have hmiss : (∀ f, foundIn kv own peer target ≠ .ok (some f)) → ¬ (target = id ∧ findsOn own peer n kv id = true) := by
    rintro hnone ⟨rfl, hfinds⟩
    unfold findsOn at hfinds
    split at hfinds
    · next f hf => exact hnone f hf
    · cases hfinds
  cases hf : foundIn kv own peer target with
  | error e =>
    rw [if_neg (hmiss fun f => by simp [hf]), hsame]
    rw [update, Kv.exec_bind, exec_find, hf]
    rfl
  | ok found =>
    cases found with
    | none =>
      rw [if_neg (hmiss fun f => by simp [hf]), hsame]
      rw [update, Kv.exec_bind, exec_find, hf]
      rfl
    | some f =>
      have hmessage := copyOn_found hs hf
      have hfinds : target = id → (findsOn own peer n kv id = true ↔ f.page.pageNumber = n) := by
        rintro rfl
        rw [findsOn, hf, decide_eq_true_eq]
      cases hc : change f.message with
      | none =>
        rw [hsame (by rw [exec_update_refused hf hc])]
        split_ifs with hthis
        · obtain ⟨rfl, hthis⟩ := hthis
          rw [(hfinds rfl).mp hthis, hm, Option.some.injEq] at hmessage
          rw [hmessage, hc]
          rfl
        · rfl
      | some c =>
        obtain ⟨kv', hrun, -, hpage, hother⟩ := exec_update_made hs.placed hf hc (hsound _ _ (sound_of_found hf).2 hc)
        rw [hrun] at hm' hreached
        obtain ⟨hpage₀, -, -⟩ := hs.placed.found hf
        have hcid : c.id = target := (hid _ _ hc).trans (foundIn_eq_some hf).2.1
        by_cases hn : f.page.pageNumber = n
        · subst hn
          obtain ⟨p', hp', hin', hid'⟩ := (copyOn_eq_some (hreached.sited.2 own peer)).mp hm'
          rw [hpage, Except.ok.injEq, Option.some.injEq] at hp'
          subst hp'
          obtain ⟨x, hx, rfl⟩ := List.mem_map.mp hin'
          by_cases htarget : target = id
          · subst htarget
            rw [hm, Option.some.injEq] at hmessage
            rw [if_pos ⟨rfl, (hfinds rfl).mpr rfl⟩, hmessage, hc]
            have hnodup : (f.replaced c).ids.Nodup := by
              rw [ids_replaced f (hid _ _ hc)]
              exact hs.ids _ _ hpage₀
            rw [List.inj_on_of_nodup_map hnodup hx (f.mem_replaced c) ((show x.id = target from hid').trans hcid.symm)]
            rfl
          · rw [if_neg fun hthis => htarget hthis.1]
            rcases List.mem_or_eq_of_mem_set hx with hold | rfl
            · obtain ⟨p, hp, hin, hid₀⟩ := (copyOn_eq_some hs).mp hm
              rw [hpage₀, Except.ok.injEq, Option.some.injEq] at hp
              subst hp
              rw [List.inj_on_of_nodup_map (hs.ids _ _ hpage₀) hold hin ((show x.id = id from hid').trans hid₀.symm)]
              rfl
            · exact absurd (hcid.symm.trans hid') htarget
        · rw [copyOn, hother n (Ne.symm hn), ← copyOn, hm, Option.some.injEq] at hm'
          rw [← hm', if_neg fun hthis => hn ((hfinds hthis.1).mp hthis.2)]

theorem status_statusSet (status : MessageStatus) (error : Option String) (m : ConversationMessage) :
    ((StoreOp.statusSet status error m).map (·.status)).getD m.status = raise m.status status := by
  rw [StoreOp.statusSet, raise]
  split_ifs <;> rfl

theorem status_applyPatch (p : MessagePatch) (m : ConversationMessage) :
    ((applyPatch p m).map (·.status)).getD m.status = p.status.toList.foldl raise m.status := by
  cases hp : p.status with
  | none =>
    simp only [applyPatch, hp, Option.toList_none, List.foldl_nil]
    split_ifs <;> simp
  | some status =>
    simp only [applyPatch, hp, Option.toList_some, List.foldl_cons, List.foldl_nil, Option.any_some, Option.getD_some, raise]
    by_cases hadvances : statusAdvances m.status status = true
    · simp [hadvances]
    · rw [if_neg hadvances]
      split_ifs <;> simp

theorem sound_statusSet {status : MessageStatus} {error : Option String} (hm : m.Sound)
    (h : StoreOp.statusSet status error m = some c) : c.Sound := by
  unfold StoreOp.statusSet at h
  split at h
  · cases h
    exact ⟨hm.timestamp, hm.index, hm.attachments, hm.reactions⟩
  · cases h

theorem sound_applyPatch {p : MessagePatch} (hm : m.Sound) (h : applyPatch p m = some c) :
    c.Sound := by
  simp only [applyPatch] at h
  split at h
  · cases h
    exact ⟨hm.timestamp, hm.index, hm.attachments, hm.reactions⟩
  · cases h

theorem status_offered (h : Reached kv) (op : StoreOp) (hm : copyOn kv own peer n id = some m)
    (hm' : copyOn (Kv.exec (op.program own peer) kv).2 own peer n id = some m') :
    m'.status = (offered own peer n id kv op).toList.foldl raise m.status := by
  have hreached := h.program own peer op
  have hkept : ¬ op.SetsStatus → m'.status = m.status := by
    intro hop
    rcases h.makes op hm hm' with rfl | ⟨-, -, hmade⟩
    · rfl
    · exact hmade.status_eq hop
  cases op with
  | setStatus target status error =>
    rw [StoreOp.program, StoreOp.snd_program] at hm' hreached
    rw [status_update h (fun m c => sound_statusSet) (fun m c hc => StoreOp.id_changed (.setStatus target status error) hc)
      hreached hm hm', offered]
    split_ifs
    · exact status_statusSet status error m
    · rfl
  | patch target p =>
    rw [StoreOp.program, StoreOp.snd_program] at hm' hreached
    rw [status_update h (fun m c => sound_applyPatch) (fun m c hc => StoreOp.id_changed (.patch target p) hc)
      hreached hm hm', offered]
    split_ifs
    · exact status_applyPatch p m
    · rfl
  | markRead now =>
    rw [offered, hm, hm']
    simp only [Option.map_some, Option.some.injEq]
    split_ifs with hread
    · rw [hread.1, hread.2]
      rfl
    · rcases h.makes (.markRead now) hm hm' with rfl | ⟨-, -, hmade⟩
      · rfl
      rcases hmade with (rfl | rfl) | ⟨target, f, c, htarget, -⟩ | ⟨now, -, -, hstatus, rfl⟩
      · rfl
      · rfl
      · cases htarget
      · exact absurd ⟨hstatus, rfl⟩ hread
  | append | react | revise | remove | pruneOlderThan | setPeerUsername | delete => exact hkept fun hset => hset

theorem Receives.status {l : List MessageStatus} {kv' : Kv} (h : Receives own peer n id kv l kv') (hkv : Reached kv)
    (hm : copyOn kv own peer n id = some m) (hm' : copyOn kv' own peer n id = some m') :
    m'.status = l.foldl raise m.status := by
  have hrun : ∀ {l kv'}, Receives own peer n id kv l kv' →
      Reached kv' ∧ ∃ x, copyOn kv' own peer n id = some x ∧ x.status = l.foldl raise m.status := by
    intro l kv' h
    induction h with
    | refl => exact ⟨hkv, m, hm, rfl⟩
    | call _ op hin ih =>
      obtain ⟨hreached, x, hx, hstatus⟩ := ih
      obtain ⟨y, hy⟩ := Option.isSome_iff_exists.mp hin
      refine ⟨hreached.program own peer op, y, hy, ?_⟩
      rw [List.foldl_append, ← hstatus]
      exact status_offered hreached op hx hy
    | elsewhere _ own' peer' op hne ih =>
      obtain ⟨hreached, x, hx, hstatus⟩ := ih
      exact ⟨hreached.program own' peer' op, x, (hreached.copyOn_apart op hne).trans hx, hstatus⟩
  obtain ⟨-, x, hx, hstatus⟩ := hrun h
  rw [hm', Option.some.injEq] at hx
  rw [hx, hstatus]

theorem raise_comm (current : MessageStatus) (ha : a = .sent ∨ a = .delivered ∨ a = .read)
    (hb : b = .sent ∨ b = .delivered ∨ b = .read) : raise (raise current a) b = raise (raise current b) a := by
  rcases ha with rfl | rfl | rfl <;> rcases hb with rfl | rfl | rfl <;> cases current <;> decide

end

/-- Once delivered a message is delivered or read, and once read it stays read, in every run that keeps its copy; and when
what it is told is sent, delivered and read, the order does not matter. -/
theorem status_never_falls_back (own peer : Cid) (n : UInt32) (id : String) :
    (∀ s s' m m', Reached s.kv → Lives own peer n id s s' → copyOn s.kv own peer n id = some m →
      copyOn s'.kv own peer n id = some m' →
      (m.status = .delivered → m'.status = .delivered ∨ m'.status = .read) ∧ (m.status = .read → m'.status = .read)) ∧
    ∀ kv₁ kv₂ kv₁' kv₂' l₁ l₂ m₁ m₂ m₁' m₂', Reached kv₁ → Reached kv₂ → copyOn kv₁ own peer n id = some m₁ →
      copyOn kv₂ own peer n id = some m₂ → m₁.status = m₂.status → Receives own peer n id kv₁ l₁ kv₁' →
      Receives own peer n id kv₂ l₂ kv₂' → (∀ status ∈ l₁, status = .sent ∨ status = .delivered ∨ status = .read) →
      l₁.Perm l₂ → copyOn kv₁' own peer n id = some m₁' → copyOn kv₂' own peer n id = some m₂' →
      m₁'.status = m₂'.status := by
  constructor
  · intro s s' m m' hs hrun hm hm'
    obtain ⟨-, hclimbs⟩ := hrun.climbs hs hm hm'
    exact ⟨fun hdelivered => Climbs.delivered hclimbs (.inl hdelivered), fun hread => Climbs.read hclimbs hread⟩
  · intro kv₁ kv₂ kv₁' kv₂' l₁ l₂ m₁ m₂ m₁' m₂' hkv₁ hkv₂ hm₁ hm₂ hsame h₁ h₂ hl hperm hm₁' hm₂'
    rw [h₁.status hkv₁ hm₁ hm₁', h₂.status hkv₂ hm₂ hm₂', hsame]
    exact hperm.foldl_eq' (fun a ha b hb current => raise_comm current (hl a ha) (hl b hb)) m₂.status

structure Lone (kv : Kv) (own peer : Cid) (message : ConversationMessage) : Prop where
  metadata : ∃ m, metadataOf kv own peer = .ok (some m) ∧ m.latestPage = 0
  page : ∃ p, pageOf kv own peer 0 = .ok (some p) ∧ p.messages = [message]

section

variable {own peer : Cid} {kv : Kv} {message : ConversationMessage}

theorem Lone.found (h : Lone kv own peer message) (hs : Sited kv own peer) :
    copyOn kv own peer 0 message.id = some message ∧ findsOn own peer 0 kv message.id = true ∧
      ∃ f, foundIn kv own peer message.id = .ok (some f) ∧ f.message = message := by
  obtain ⟨m, hmeta, hlatest⟩ := h.metadata
  obtain ⟨p, hpage, honly⟩ := h.page
  obtain ⟨f, hf, -, rfl, hmessage⟩ := foundIn_only hmeta hlatest hpage honly
  refine ⟨(copyOn_eq_some hs).mpr ⟨_, hpage, by rw [honly]; exact List.mem_singleton_self _, rfl⟩, ?_, f, hf, hmessage⟩
  rw [findsOn, hf, decide_eq_true_eq]
  exact (hs.placed.page 0 _ hpage).2

theorem Lone.setStatus (h : Lone kv own peer message) (hkv : Reached kv) (status : MessageStatus) :
    ∃ message', Lone (Kv.exec ((StoreOp.setStatus message.id status none).program own peer) kv).2 own peer message' ∧
      message'.id = message.id ∧ message'.senderCid = message.senderCid ∧ message'.status = raise message.status status := by
  have hs := hkv.sited.2 own peer
  obtain ⟨-, -, f, hf, rfl⟩ := h.found hs
  rw [StoreOp.program, StoreOp.snd_program]
  cases hc : StoreOp.statusSet status none f.message with
  | none =>
    rw [show Kv.exec (setStatus own peer f.message.id status none) kv = _ from exec_update_refused hf hc]
    refine ⟨f.message, h, rfl, rfl, ?_⟩
    rw [← status_statusSet status none, hc]
    rfl
  | some c =>
    obtain ⟨kv', hrun, hmeta, hpage, -⟩ := exec_update_made hs.placed hf hc (sound_statusSet (sound_of_found hf).2 hc)
    rw [show Kv.exec (setStatus own peer f.message.id status none) kv = _ from hrun]
    obtain ⟨m, hm, hlatest⟩ := h.metadata
    obtain ⟨p, hp, honly⟩ := h.page
    have hzero : f.page.pageNumber = 0 := by
      obtain ⟨f', hf', -, hpage', -⟩ := foundIn_only hm hlatest hp honly
      rw [hf, Except.ok.injEq, Option.some.injEq] at hf'
      rw [hf', hpage']
      exact (hs.placed.page 0 p hp).2
    have hone : (f.replaced c).messages = [c] := by
      have hlen : f.page.messages.length = 1 := by
        have hpage₀ := (hs.placed.found hf).1
        rw [hzero, hp, Except.ok.injEq, Option.some.injEq] at hpage₀
        rw [← hpage₀, honly]
        rfl
      obtain ⟨x, hx⟩ := List.length_eq_one_iff.mp (show (f.replaced c).messages.length = 1 by
        rw [Found.replaced, List.length_set, hlen])
      have hmem := f.mem_replaced c
      rw [hx, List.mem_singleton] at hmem
      rw [hx, hmem]
    refine ⟨c.norm, ⟨⟨m, hmeta.trans hm, hlatest⟩, (f.replaced c).norm, hzero ▸ hpage, ?_⟩, ?_, ?_, ?_⟩
    · rw [ConversationPage.norm, hone]
      rfl
    · have hid := StoreOp.id_changed (.setStatus f.message.id status none) hc
      exact hid
    · have hsender := StoreOp.senderCid_changed (.setStatus f.message.id status none) hc
      exact hsender
    · rw [← status_statusSet status none, hc]
      rfl

theorem Receives.setStatus {kv₀ : Kv} {l : List MessageStatus} (h : Lone kv own peer message) (hkv : Reached kv)
    (hrun : Receives own peer 0 message.id kv₀ l kv) (status : MessageStatus) :
    ∃ kv' message', Receives own peer 0 message.id kv₀ (l ++ [status]) kv' ∧ Reached kv' ∧ Lone kv' own peer message' ∧
      message'.id = message.id := by
  obtain ⟨message', hlone, hid, -⟩ := h.setStatus hkv status
  have hreached := hkv.program own peer (.setStatus message.id status none)
  refine ⟨_, message', ?_, hreached, hlone, hid⟩
  have hthere := (hlone.found (hreached.sited.2 own peer)).1
  rw [hid] at hthere
  have hcall := hrun.call (.setStatus message.id status none) (Option.isSome_iff_exists.mpr ⟨message', hthere⟩)
  rwa [offered, if_pos ⟨rfl, (h.found (hkv.sited.2 own peer)).2.1⟩] at hcall

theorem lone_first : ∃ kv, Reached kv ∧ Lone kv 1 2 firstMessage.norm := by
  obtain ⟨kv, r, hadded, hmeta, hpage⟩ := exec_append_first
  refine ⟨kv, ?_, ⟨_, hmeta, rfl⟩, _, hpage, ?_⟩
  · have hempty : Reached ∅ := .refl
    have hcall := hempty.program 1 2 (.append firstMessage none (F64.ofNat 10))
    rwa [StoreOp.program, StoreOp.snd_program, hadded] at hcall
  · rw [ConversationPage.norm, messages_first]
    rfl

end

/-- The first message of a conversation, delivered: told that it was sent, and told so before and after it was read. -/
theorem status_never_falls_back_first : ∃ kv kv₁ kv₂ m m₁ m₂ m',
    copyOn kv 1 2 0 "m1" = some m ∧ m.status = .delivered ∧
    copyOn (Step.apply (.store 1 2 (.setStatus "m1" .sent none)) ⟨kv, fun _ => 0, []⟩).kv 1 2 0 "m1" = some m' ∧
    (m'.status = .delivered ∨ m'.status = .read) ∧
    Receives 1 2 0 "m1" kv [.sent, .read] kv₁ ∧ copyOn kv₁ 1 2 0 "m1" = some m₁ ∧
    Receives 1 2 0 "m1" kv [.read, .sent] kv₂ ∧ copyOn kv₂ 1 2 0 "m1" = some m₂ ∧ m₁.status = m₂.status := by
  obtain ⟨kv, hkv, hlone⟩ := lone_first
  have hcopy : ∀ {kv message}, Reached kv → Lone kv 1 2 message → message.id = "m1" →
      copyOn kv 1 2 0 "m1" = some message := by
    rintro kv message h hl hid
    rw [← hid]
    exact (hl.found (h.sited.2 1 2)).1
  have hrun : ∀ a b, ∃ kv' message', Receives 1 2 0 "m1" kv [a, b] kv' ∧ Reached kv' ∧ Lone kv' 1 2 message' ∧
      message'.id = "m1" := by
    intro a b
    obtain ⟨kv₁, message₁, hr₁, hk₁, hl₁, hid₁⟩ := Receives.setStatus hlone hkv .refl a
    rw [← hid₁] at hr₁
    obtain ⟨kv₂, message₂, hr₂, hk₂, hl₂, hid₂⟩ := Receives.setStatus hl₁ hk₁ hr₁ b
    rw [hid₁] at hr₂ hid₂
    exact ⟨kv₂, message₂, hr₂, hk₂, hl₂, hid₂⟩
  obtain ⟨kv₁, m₁, hr₁, hk₁, hl₁, hid₁⟩ := hrun .sent .read
  obtain ⟨kv₂, m₂, hr₂, hk₂, hl₂, hid₂⟩ := hrun .read .sent
  obtain ⟨m', hlone', hid', -⟩ := hlone.setStatus hkv .sent
  have hm := hcopy hkv hlone rfl
  have hm₁ := hcopy hk₁ hl₁ hid₁
  have hm₂ := hcopy hk₂ hl₂ hid₂
  have hm' := hcopy (hkv.program 1 2 _) hlone' hid'
  let s : Shared := ⟨kv, fun _ => 0, []⟩
  have hlives : Lives 1 2 0 "m1" s ((Step.store 1 2 (.setStatus "m1" .sent none)).apply s) :=
    Lives.refl.step _ (Option.isSome_iff_exists.mpr ⟨m', hm'⟩)
  obtain ⟨hclimbs, horder⟩ := status_never_falls_back 1 2 0 "m1"
  refine ⟨kv, kv₁, kv₂, _, m₁, m₂, m', hm, rfl, hm', (hclimbs s _ _ m' hkv hlives hm hm').1 rfl, hr₁, hm₁, hr₂, hm₂, ?_⟩
  exact horder kv kv kv₁ kv₂ _ _ _ _ m₁ m₂ hkv hkv hm hm rfl hr₁ hr₂ (by simp) (.swap _ _ _) hm₁ hm₂

end CitadelAgent.Conversations
