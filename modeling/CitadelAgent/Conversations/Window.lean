import CitadelAgent.Conversations.Loaded
import CitadelAgent.Conversations.Newest

/-!
# How far back a redelivery is recognised

* `Entry`, `Logged` : the messages that a conversation has stored, newest first, and which of them have been taken away;
* `Window` : those on the newest page and on the one before it are at least the last `MESSAGES_PER_PAGE`;
* `Logged.window` : on every run, and `redelivery_window` what follows for an append.
-/

namespace CitadelAgent.Conversations
open Store StoreRules Result

structure Entry where
  message : ConversationMessage
  removed : Bool

def StoreOp.strikes : StoreOp → ConversationMessage → Bool
  | .revise id reviser .delete _, m => m.id = id ∧ m.senderCid = reviser
  | .remove id _, m => m.id = id
  | .pruneOlderThan cutoff _, m => !cutoff.le m.timestamp
  | .delete _, _ => true
  | _, _ => false

def Entry.struck (op : StoreOp) (e : Entry) : Entry := { e with removed := e.removed || op.strikes e.message }

/-- Successful operations that bring finite numbers, and the log of a conversation: what it stored, newest first. -/
inductive Logged (own peer : Cid) : List Entry → Kv → Prop
  | empty : Logged own peer [] ∅
  | stored {log : List Entry} {kv kv' : Kv} (h : Logged own peer log kv) (message : ConversationMessage) (name : Option String)
    (now : F64) (m : ConversationMetadata) (hop : (StoreOp.append message name now).Sound)
    (hrun : Kv.exec (append own peer message name now) kv = (.ok (some m), kv')) :
    Logged own peer (⟨message, false⟩ :: log) kv'
  | again {log : List Entry} {kv kv' : Kv} (h : Logged own peer log kv) (message : ConversationMessage) (name : Option String)
    (now : F64) (hrun : Kv.exec (append own peer message name now) kv = (.ok none, kv')) : Logged own peer log kv'
  | changed {log : List Entry} {kv kv' : Kv} (h : Logged own peer log kv) (op : StoreOp) (hop : op.Sound)
    (hnot : ∀ message name now, op ≠ .append message name now)
    (hrun : Kv.exec (op.program own peer) kv = (.ok (), kv')) : Logged own peer (log.map (.struck op)) kv'
  | elsewhere {log : List Entry} {kv kv' : Kv} (h : Logged own peer log kv) (own' peer' : Cid)
    (hne : ¬ (own = own' ∧ peer = peer')) (op : StoreOp) (hop : op.FiniteTime)
    (hrun : Kv.exec (op.program own' peer') kv = (.ok (), kv')) : Logged own peer log kv'

variable {d : Draft} {m message x : ConversationMessage} {n : UInt32} {name : Option String}

section

variable {own peer : Cid} {kv kv' : Kv} {log : List Entry} {op : StoreOp}

theorem Logged.run (h : Logged own peer log kv) : Run kv := by
  induction h with
  | empty => exact .empty
  | stored _ message name now m hop hrun ih =>
    exact .step own peer (.append message name now) ih hop.finiteTime (StoreOp.exec_discard.mpr ⟨_, hrun⟩)
  | again _ message name now hrun ih =>
    rcases append_eq_ok hrun with ⟨-, rfl⟩ | ⟨d, writes, -, -, hsome, -⟩
    · exact ih
    · cases hsome
  | changed _ op hop _ hrun ih => exact .step own peer op ih hop.finiteTime hrun
  | elsewhere _ own' peer' _ op hop hrun ih => exact .step own' peer' op ih hop hrun

/-! ## Where a logged message is -/

/-- The same message, as far as taking it away goes. -/
structure Twin (m x : ConversationMessage) : Prop where
  id : x.id = m.id
  senderCid : x.senderCid = m.senderCid
  timestamp : x.timestamp.norm = m.timestamp.norm

theorem Twin.norm (h : Twin m x) : Twin m x.norm :=
  ⟨h.id, h.senderCid, (F64.norm_norm _).trans h.timestamp⟩

/-- It has not been taken away, and is on that page. -/
def Entry.On (kv : Kv) (own peer : Cid) (n : UInt32) (e : Entry) : Prop :=
  e.removed = false → ∃ x ∈ loadedOn kv own peer n, Twin e.message x

theorem Twin.makes {x' : ConversationMessage} (h : Twin m x) (hmade : op.Makes own peer kv x x') : Twin m x' := by
  refine ⟨hmade.id_eq.trans h.id, hmade.senderCid_eq.trans h.senderCid, ?_⟩
  rcases hmade with (rfl | rfl) | ⟨id, f, c, -, -, -, hc, rfl⟩ | ⟨now, -, -, -, rfl⟩
  · exact h.timestamp
  · exact h.norm.timestamp
  · rw [← h.timestamp, ← (op.changed_keeps hc).2.2.2.1]
    exact F64.norm_norm _
  · exact h.norm.timestamp

theorem Twin.strikes (h : Twin m x) (hlost : op.Loses own peer kv x) :
    op.strikes m = true := by
  cases hlost with
  | taken id f hid hf hm ht =>
    have hfid : x.id = id := hm ▸ (foundIn_eq_some hf).2.1
    cases op with
    | revise id' reviser revision now =>
      cases revision with
      | delete =>
        cases hid
        exact decide_eq_true ⟨h.id.symm.trans hfid, h.senderCid.symm.trans ht⟩
      | edit => exact ht.elim
    | remove id' now =>
      cases hid
      exact decide_eq_true (h.id.symm.trans hfid)
    | _ => exact ht.elim
  | pruned cutoff now hop hold =>
    subst hop
    have hnorm : cutoff.le m.timestamp = cutoff.le x.timestamp := by rw [← F64.le_norm, ← h.timestamp, F64.le_norm]
    rw [StoreOp.strikes, hnorm, hold]
    rfl
  | deleted b hop =>
    subst hop
    rfl

theorem Entry.On.touched {e : Entry} (h : e.On kv own peer n) (ht : Touched own peer op kv kv') (hs : Sited kv own peer)
    (hfound : ∃ found, pageOf kv' own peer n = .ok found) : (e.struck op).On kv' own peer n := by
  intro halive
  obtain ⟨hremoved, hstrikes⟩ := Bool.or_eq_false_iff.mp halive
  obtain ⟨x, hx, htwin⟩ := h hremoved
  obtain ⟨found, hfound⟩ := hfound
  rcases ht.fate hs hfound hx with ⟨x', hx', hmade⟩ | hlost
  · exact ⟨x', hx', htwin.makes hmade⟩
  · rw [htwin.strikes hlost] at hstrikes
    cases hstrikes

theorem Entry.On.congr {e : Entry} (h : e.On kv own peer n) (hpage : pageOf kv' own peer n = pageOf kv own peer n) :
    e.On kv' own peer n := by
  intro halive
  obtain ⟨x, hx, htwin⟩ := h halive
  exact ⟨x, by rwa [loadedOn, hpage], htwin⟩

/-! ## The window -/

/-- The log as the pages have it: what the newest page was given, what the one before it was, and the rest. -/
structure Split (kv : Kv) (own peer : Cid) (latest : UInt32) (log newest before rest : List Entry) : Prop where
  log_eq : log = newest ++ before ++ rest
  onNewest : ∀ e ∈ newest, e.On kv own peer latest
  onBefore : ∀ e ∈ before, e.removed = false → latest ≠ 0 ∧ e.On kv own peer (latest - 1)
  /-- A page that is full was given that much, so the one before the newest was. -/
  given : (loadedOn kv own peer latest).length ≤ newest.length
  full : rest ≠ [] → MESSAGES_PER_PAGE ≤ before.length

structure Window (own peer : Cid) (log : List Entry) (kv : Kv) : Prop where
  loads : Loads kv own peer
  unstarted : metadataOf kv own peer = .ok none → ∀ e ∈ log, e.removed = true
  split : ∀ m, metadataOf kv own peer = .ok (some m) → ∃ newest before rest, Split kv own peer m.latestPage log newest before rest

theorem Split.touched {latest : UInt32} {newest before rest : List Entry}
    (h : Split kv own peer latest log newest before rest) (ht : Touched own peer op kv kv') (hs : Sited kv own peer)
    (hnot : ∀ message name now, op ≠ .append message name now) (hfound : ∀ n, ∃ found, pageOf kv' own peer n = .ok found) :
    Split kv' own peer latest (log.map (.struck op)) (newest.map (.struck op)) (before.map (.struck op))
      (rest.map (.struck op)) where
  log_eq := by rw [h.log_eq, List.map_append, List.map_append]
  onNewest := by
    intro e he
    obtain ⟨x, hx, rfl⟩ := List.mem_map.mp he
    exact (h.onNewest x hx).touched ht hs (hfound latest)
  onBefore := by
    intro e he halive
    obtain ⟨x, hx, rfl⟩ := List.mem_map.mp he
    obtain ⟨hlatest, hon⟩ := h.onBefore x hx (Bool.or_eq_false_iff.mp halive).1
    exact ⟨hlatest, hon.touched ht hs (hfound _)⟩
  given := by
    rw [List.length_map]
    exact (ht.length_le hnot).trans h.given
  full := by
    intro hrest
    rw [List.length_map]
    exact h.full fun hnil => hrest (by rw [hnil, List.map_nil])

theorem Window.touched (h : Window own peer log kv) (ht : Touched own peer op kv kv') (hs : Sited kv own peer)
    (hs' : Sited kv' own peer) (hnot : ∀ message name now, op ≠ .append message name now) (hloads : Loads kv' own peer) :
    Window own peer (log.map (.struck op)) kv' := by
  refine ⟨hloads, fun hnone e he => ?_, fun m hm => ?_⟩
  · obtain ⟨x, hx, rfl⟩ := List.mem_map.mp he
    have hafter := ht.metadata
    rw [hnone] at hafter
    rcases hafter with hsame | ⟨_, _, -, -, -, -, hw⟩ | ⟨message, name, now, _, heq, -, -⟩ | ⟨b, rfl, -⟩
    · rw [Entry.struck, h.unstarted hsame.symm x hx, Bool.true_or]
    · cases hw.eq_some
    · exact absurd heq (hnot message name now)
    · exact Bool.or_true _
  · have hafter := ht.metadata
    rw [hm] at hafter
    have hlatest : ∃ m₀, metadataOf kv own peer = .ok (some m₀) ∧ m.latestPage = m₀.latestPage := by
      rcases hafter with hsame | ⟨m₀, m', hm₀, -, hlatest, -, hw⟩ | ⟨message, name, now, _, heq, -, -⟩ | ⟨b, -, hgone⟩
      · exact ⟨m, hsame.symm, rfl⟩
      · rw [Option.some.inj hw.eq_some]
        exact ⟨m₀, hm₀, hlatest⟩
      · exact absurd heq (hnot message name now)
      · cases hgone
    obtain ⟨m₀, hm₀, hlatest⟩ := hlatest
    obtain ⟨newest, before, rest, hsplit⟩ := h.split m₀ hm₀
    rw [hlatest]
    exact ⟨_, _, _, hsplit.touched ht hs hnot (hloads.found hs')⟩

/-! ## One more message -/

theorem Draft.messages_eq (hs : Placed kv own peer) (hd : draftOf kv own peer message name = .ok (some d)) :
    d.page.messages = loadedOn kv own peer d.metadata.latestPage := by
  obtain ⟨-, -, -, -, hpage | ⟨hnone, hempty⟩⟩ := Draft.page_eq hs hd
  · exact (loadedOn_eq hpage).symm
  · rw [loadedOn_none hnone, hempty]
    rfl

theorem reads_stored (hs : Placed kv own peer) {writes : List (Place × Bytes)}
    (hd : draftOf kv own peer message name = .ok (some d)) (hw : d.Writes own peer message writes) {now : F64}
    (hop : (StoreOp.append message name now).Sound) (hkv' : kv' = insertAll (writes ++ [d.pointer own message now]) kv) :
    metadataOf kv' own peer = .ok (some (d.recorded own message now).norm) ∧
    pageOf kv' own peer d.number = .ok (some (d.placed peer message).norm) ∧
    (d.Full → pageOf kv' own peer d.metadata.latestPage = .ok (some d.page.norm)) ∧
    (¬ d.Full → ∀ n, n ≠ d.metadata.latestPage → pageOf kv' own peer n = pageOf kv own peer n) := by
  obtain ⟨hmeta, hpeer, hnumber, -⟩ := Draft.page_eq hs hd
  have hplaced := (Draft.readable_placed hd).mpr hop.1.readable
  have hrecorded := Draft.readable_recorded_of_readable hd hop.1.readable hop.2
  rw [hkv', insertAll_concat, Draft.pointer, hmeta, metadataOf_insert_metadata, if_pos rfl]
  simp only [pageOf_insert_metadata]
  refine ⟨(recordRead_metadataBytes _ _).mpr ⟨hrecorded, rfl⟩, ?_⟩
  unfold Draft.Writes at hw
  split_ifs at hw with hf
  · obtain ⟨hroom, closed, placed, hclosed, hencode, rfl⟩ := hw
    have hnext : d.number = d.metadata.latestPage + 1 := if_pos hf
    have hne : d.metadata.latestPage ≠ d.number := by
      intro heq
      have hsucc := congrArg UInt32.toNat (heq.trans hnext)
      rw [toNat_add_one hroom] at hsucc
      omega
    have hsound := sound_of_pageOf (pageOf_of_full hd hf)
    refine ⟨?_, fun _ => ?_, fun hnot => absurd hf hnot⟩
    · rw [insertAll, insertAll, insertAll, pageOf_insert_messages, if_pos ⟨rfl, rfl⟩]
      exact (recordRead_encodePage hencode _).mpr ⟨hplaced, rfl⟩
    · rw [insertAll, insertAll, insertAll, pageOf_insert_messages, if_neg fun hk => hne hk.2, pageOf_insert_messages,
        if_pos ⟨hpeer.symm, hnumber.symm⟩]
      exact (recordRead_encodePage hclosed _).mpr ⟨hsound.readable, rfl⟩
  · obtain ⟨placed, hencode, rfl⟩ := hw
    have hsame : d.number = d.metadata.latestPage := if_neg hf
    rw [hsame]
    refine ⟨?_, fun hfull => absurd hfull hf, fun _ n hn => ?_⟩
    · rw [insertAll, insertAll, pageOf_insert_messages, if_pos ⟨hpeer.symm, hnumber.symm⟩]
      exact (recordRead_encodePage hencode _).mpr ⟨hplaced, rfl⟩
    · rw [insertAll, insertAll, pageOf_insert_messages, if_neg fun hk => hn (hk.2.trans hnumber)]

theorem Entry.On.of_mem {e : Entry} (hx : x ∈ loadedOn kv own peer n) (h : Twin e.message x) : e.On kv own peer n := fun _ => ⟨x, hx, h⟩

theorem Entry.On.norm {e : Entry} {p : ConversationPage} (h : e.On kv own peer n) (hp : pageOf kv' own peer n = .ok (some p.norm))
    (hsub : ∀ x ∈ loadedOn kv own peer n, x ∈ p.messages) :
    e.On kv' own peer n := by
  intro halive
  obtain ⟨x, hx, htwin⟩ := h halive
  exact ⟨x.norm, mem_loadedOn.mpr ⟨_, hp, List.mem_map_of_mem (hsub x hx)⟩, htwin.norm⟩

theorem Draft.messages_placed (hf : ¬ d.Full) :
    ∀ x, x ∈ (d.placed peer message).messages ↔ x ∈ d.page.messages ∨ x = message := by
  intro x
  rw [Draft.placed, if_neg hf]
  exact mem_place

theorem Draft.length_placed (d : Draft) (message : ConversationMessage) :
    (d.placed peer message).messages.length = if d.Full then 1 else d.page.messages.length + 1 := by
  rw [Draft.placed]
  split_ifs with hf
  · simp [place, emptyPage]
  · simp [place]

theorem sub_one_ne (n : UInt32) : n - 1 ≠ n := by
  intro heq
  have hone : n - (n - 1) = n - n := by rw [heq]
  simp at hone

theorem Window.stored (h : Window own peer log kv) (hs : Sited kv own peer) {now : F64} {m : ConversationMetadata}
    (hop : (StoreOp.append message name now).Sound) (hrun : Kv.exec (append own peer message name now) kv = (.ok (some m), kv'))
    (hloads : Loads kv' own peer) :
    Window own peer (⟨message, false⟩ :: log) kv' := by
  obtain ⟨d, writes, hd, hw, -, hkv'⟩ := append_eq_some hrun
  obtain ⟨hmeta, hpage, hfull, hother⟩ := reads_stored hs.placed hd hw hop hkv'
  have hmessages := Draft.messages_eq hs.placed hd
  refine ⟨hloads, fun hnone => ?_, fun m' hm' => ?_⟩
  · rw [hmeta] at hnone
    cases hnone
  rw [hmeta, Except.ok.injEq, Option.some.injEq] at hm'
  subst hm'
  rw [show (d.recorded own message now).norm.latestPage = d.number from rfl]
  have hself : Entry.On kv' own peer d.number ⟨message, false⟩ := by
    refine .of_mem (mem_loadedOn.mpr ⟨_, hpage, List.mem_map_of_mem (?_ : message ∈ (d.placed peer message).messages)⟩)
      ⟨rfl, rfl, F64.norm_norm _⟩
    rw [Draft.placed]
    exact mem_place.mpr (.inr rfl)
  have hlength : (loadedOn kv' own peer d.number).length = if d.Full then 1 else d.page.messages.length + 1 := by
    rw [loadedOn_eq hpage, ConversationPage.norm, List.length_map, Draft.length_placed]
  rcases Draft.metadata_cases hd with ⟨existing, hexisting, -⟩ | ⟨hnone, -⟩
  · have hlatest : d.metadata.latestPage = existing.latestPage := Draft.latestPage_eq hd hexisting
    obtain ⟨newest, before, rest, hsplit⟩ := h.split existing hexisting
    rw [← hlatest] at hsplit
    have hgiven := hsplit.given
    rw [← hmessages] at hgiven
    by_cases hf : d.Full
    · -- The page that was the newest is the one before it now.
      have hroom := hw.room hf
      have hnumber : d.number = d.metadata.latestPage + 1 := if_pos hf
      rw [if_pos hf] at hlength
      refine ⟨[⟨message, false⟩], newest, before ++ rest, by simp [hsplit.log_eq], fun e he => ?_, fun e he halive => ⟨?_, ?_⟩,
        hlength.le, fun _ => hf.trans hgiven⟩
      · rw [List.mem_singleton.mp he]
        exact hself
      · intro hzero
        have hsucc := congrArg UInt32.toNat (hnumber.symm.trans hzero)
        rw [toNat_add_one hroom] at hsucc
        cases hsucc
      · rw [hnumber, UInt32.add_sub_cancel]
        exact (hsplit.onNewest e he).norm (hfull hf) fun x hx => hmessages ▸ hx
    · have hnumber : d.number = d.metadata.latestPage := if_neg hf
      rw [if_neg hf] at hlength
      refine ⟨⟨message, false⟩ :: newest, before, rest, by simp [hsplit.log_eq], fun e he => ?_, fun e he halive => ?_, ?_,
        hsplit.full⟩
      · rcases List.mem_cons.mp he with rfl | hold
        · exact hself
        · rw [hnumber] at hpage ⊢
          exact (hsplit.onNewest e hold).norm hpage fun x hx => (Draft.messages_placed hf x).mpr (.inl (hmessages ▸ hx))
      · rw [hnumber]
        obtain ⟨hzero, hon⟩ := hsplit.onBefore e he halive
        exact ⟨hzero, hon.congr (hother hf _ (sub_one_ne _))⟩
      · rw [hlength, List.length_cons]
        exact Nat.succ_le_succ hgiven
  · -- The first message of the conversation.
    have hempty : d.page.messages = [] := by rw [hmessages, loadedOn_none (hs.unstarted hnone _)]
    have hf : ¬ d.Full := by
      rw [Draft.Full, hempty]
      decide
    rw [if_neg hf, hempty] at hlength
    refine ⟨[⟨message, false⟩], log, [], by simp, fun e he => ?_, fun e he halive => ?_, hlength.le, fun hne => absurd rfl hne⟩
    · rw [List.mem_singleton.mp he]
      exact hself
    · rw [h.unstarted hnone e he] at halive
      cases halive

/-! ## Every run -/

theorem Window.frame {own' peer' : Cid} (h : Window own peer log kv) (hf : Frame own' peer' kv kv')
    (hne : ¬ (own = own' ∧ peer = peer')) : Window own peer log kv' := by
  refine ⟨h.loads.frame hf hne, fun hnone => h.unstarted ((hf.metadataOf hne).symm.trans hnone), fun m hm => ?_⟩
  obtain ⟨newest, before, rest, hsplit⟩ := h.split m ((hf.metadataOf hne).symm.trans hm)
  refine ⟨newest, before, rest, hsplit.log_eq, fun e he => (hsplit.onNewest e he).congr (hf.pageOf hne _), fun e he halive => ?_,
    ?_, hsplit.full⟩
  · obtain ⟨hlatest, hon⟩ := hsplit.onBefore e he halive
    exact ⟨hlatest, hon.congr (hf.pageOf hne _)⟩
  · rw [loadedOn, hf.pageOf hne]
    exact hsplit.given

theorem Logged.window (h : Logged own peer log kv) : Window own peer log kv := by
  induction h with
  | empty =>
    refine ⟨Engine.loads_empty own peer, fun _ e he => (nomatch he), fun m hm => ?_⟩
    rw [metadataOf_absent (fun _ _ => rfl) ⟨rfl, fun _ => rfl⟩] at hm
    cases hm
  | @stored log kv kv' h message name now m hop hrun ih =>
    obtain ⟨hl, hg⟩ := h.run.good
    have hs := h.run.reached.sited.2 own peer
    have ht := append_touched hs.placed message name now
    rw [hrun] at ht
    exact ih.stored hs hop hrun (ht.loads hop hl (hg own peer) hs ih.loads)
  | again _ message name now hrun ih =>
    rcases append_eq_ok hrun with ⟨-, rfl⟩ | ⟨d, writes, -, -, hsome, -⟩
    · exact ih
    · cases hsome
  | @changed log kv kv' h op hop hnot hrun ih =>
    obtain ⟨hl, hg⟩ := h.run.good
    have hsited := h.run.reached.sited.2 own peer
    have ht := h.run.reached.touched own peer op
    have hafter := (Logged.changed h op hop hnot hrun).run.reached.sited.2 own peer
    rw [hrun] at ht
    exact ih.touched ht hsited hafter hnot (ht.loads hop hl (hg own peer) hsited ih.loads)
  | @elsewhere log kv kv' h own' peer' hne op hop hrun ih =>
    have ht := h.run.reached.touched own' peer' op
    rw [hrun] at ht
    exact ih.frame ht.apart.frame hne

theorem exec_append_again {m : ConversationMetadata} (hm : metadataOf kv own peer = .ok (some m)) (hloads : Loads kv own peer)
    (hid : x.id = message.id)
    (hx : x ∈ loadedOn kv own peer m.latestPage ∨ (m.latestPage ≠ 0 ∧ x ∈ loadedOn kv own peer (m.latestPage - 1)))
    (name : Option String) (now : F64) : Kv.exec (append own peer message name now) kv = (.ok none, kv) := by
  obtain ⟨page, hpage⟩ := (loads_of_metadata hm).mp hloads _ (UInt32.le_refl _)
  have hhas : ∀ {p : ConversationPage}, x ∈ p.messages → p.messages.any (hasId message.id) = true :=
    fun hin => List.any_eq_true.mpr ⟨x, hin, decide_eq_true hid⟩
  have hstored : storedIn kv own peer m.latestPage (page.getD (emptyPage peer m.latestPage message.timestamp)) message.id =
      .ok true := by
    unfold storedIn
    split_ifs with hnewest hzero
    · rfl
    · obtain ⟨p, hp, hin⟩ := mem_loadedOn.mp (hx.resolve_right fun hright => hright.1 hzero)
      rw [hpage, Except.ok.injEq] at hp
      rw [hp, Option.getD_some] at hnewest
      exact absurd (hhas hin) hnewest
    · rcases hx with hleft | ⟨-, hright⟩
      · obtain ⟨p, hp, hin⟩ := mem_loadedOn.mp hleft
        rw [hpage, Except.ok.injEq] at hp
        rw [hp, Option.getD_some] at hnewest
        exact absurd (hhas hin) hnewest
      · obtain ⟨p, hp, hin⟩ := mem_loadedOn.mp hright
        simp only [hp, Option.any_some, hhas hin]
  have hdraft : draftOf kv own peer message name = .ok none := by
    simp only [draftOf, bind_eq_ok]
    exact ⟨_, hm, _, newestPage_eq_ok.mpr ⟨page, hpage, rfl⟩, true, hstored, rfl⟩
  rw [Kv.exec, exec_append_of_honest honest_handle, id, hdraft]

/-- On every run that brings finite numbers: a message with the id of one of the last `MESSAGES_PER_PAGE` stored, and
not taken away since, is not stored again. -/
theorem redelivery_window (h : Logged own peer log kv) {e : Entry} (he : e ∈ log.take MESSAGES_PER_PAGE)
    (halive : e.removed = false) (message : ConversationMessage) (hid : message.id = e.message.id) (name : Option String)
    (now : F64) : Kv.exec (append own peer message name now) kv = (.ok none, kv) := by
  have hwindow := h.window
  obtain ⟨existing, hm, -⟩ := loads_iff.mp hwindow.loads
  cases existing with
  | none =>
    rw [hwindow.unstarted hm e (List.mem_of_mem_take he)] at halive
    cases halive
  | some m =>
    obtain ⟨newest, before, rest, hsplit⟩ := hwindow.split m hm
    have hmem : e ∈ newest ++ before := by
      rw [hsplit.log_eq] at he
      by_cases hrest : rest = []
      · rw [hrest, List.append_nil] at he
        exact List.mem_of_mem_take he
      · have hle : MESSAGES_PER_PAGE ≤ (newest ++ before).length := by
          rw [List.length_append]
          exact (hsplit.full hrest).trans (Nat.le_add_left _ _)
        rw [List.take_append_of_le_length hle] at he
        exact List.mem_of_mem_take he
    rcases List.mem_append.mp hmem with hin | hin
    · obtain ⟨x, hx, htwin⟩ := hsplit.onNewest e hin halive
      exact exec_append_again hm hwindow.loads (htwin.id.trans hid.symm) (.inl hx) name now
    · obtain ⟨hlatest, hon⟩ := hsplit.onBefore e hin halive
      obtain ⟨x, hx, htwin⟩ := hon halive
      exact exec_append_again hm hwindow.loads (htwin.id.trans hid.symm) (.inr ⟨hlatest, hx⟩) name now

end

/-! ## One message -/

/-- The first message of a conversation, delivered again. -/
theorem redelivery_window_first : ∃ kv, Logged 1 2 [⟨firstMessage, false⟩] kv ∧
    Kv.exec (append 1 2 firstMessage none (F64.ofNat 11)) kv = (.ok none, kv) := by
  obtain ⟨placed, hw⟩ := writes_first
  have hsound : (StoreOp.append firstMessage none (F64.ofNat 10)).Sound := ⟨sound_first, F64.isFinite_ofNat (by decide)⟩
  have hlog : Logged 1 2 [⟨firstMessage, false⟩] _ :=
    .stored .empty firstMessage none (F64.ofNat 10) _ hsound (exec_append_of_draft draftOf_first hw (F64.ofNat 10))
  exact ⟨_, hlog, redelivery_window hlog (e := ⟨firstMessage, false⟩) (List.mem_singleton_self _) rfl firstMessage rfl none _⟩

def endlessMessage : ConversationMessage := .text "m1" "hello" 2 1 F64.infinity (F64.ofNat 0) .delivered

/-- It is stored, and delivered again it is not recognised: the conversation cannot be loaded. -/
theorem redelivery_of_endless : ∃ kv m e,
    Kv.exec (append 1 2 endlessMessage none (F64.ofNat 10)) ∅ = (.ok (some m), kv) ∧
    Kv.exec (append 1 2 endlessMessage none (F64.ofNat 11)) kv = (.error e, kv) := by
  generalize hd : (⟨stamped 1 (newMetadata 1 2 endlessMessage none endlessMessage.timestamp),
    emptyPage 2 0 endlessMessage.timestamp, true⟩ : Draft) = d
  have hdraft := draftOf_empty 1 2 endlessMessage none
  rw [hd] at hdraft
  have hempty : d.page.messages = [] := by rw [← hd]; rfl
  have hf : ¬ d.Full := by
    rw [Draft.Full, hempty]
    decide
  have hfin : (d.placed 2 endlessMessage).FiniteReactions := by
    intro m hm list hlist
    rw [Draft.messages_placed hf, hempty] at hm
    rw [hm.resolve_left List.not_mem_nil] at hlist
    cases hlist
  obtain ⟨b, hb⟩ : ∃ b, encodePage (d.placed 2 endlessMessage) = .ok b := ⟨_, (encodePage_eq_ok _ _).mpr ⟨hfin, rfl⟩⟩
  obtain ⟨writes, hw⟩ : ∃ writes, d.Writes 1 2 endlessMessage writes := ⟨_, by rw [Draft.Writes, if_neg hf]; exact ⟨b, hb, rfl⟩⟩
  have hrun := exec_append_of_draft hdraft hw (F64.ofNat 10)
  have hpeer : d.metadata.peerCid = 2 := by rw [← hd]; rfl
  have hrecord : (insertAll (writes ++ [d.pointer 1 endlessMessage (F64.ofNat 10)]) ∅).at_ (.metadata 1 2) =
      some (metadataBytes (d.recorded 1 endlessMessage (F64.ofNat 10))) := record_after hpeer
  have hnot : ¬ (d.recorded 1 endlessMessage (F64.ofNat 10)).Readable := by
    intro hread
    have hnewest : endlessMessage.timestamp.isFinite = true := hread.newestMessageTimestamp
    cases hnewest
  generalize insertAll (writes ++ [d.pointer 1 endlessMessage (F64.ofNat 10)]) ∅ = kv at hrun hrecord
  obtain ⟨e, he⟩ : ∃ e, metadataOf kv 1 2 = .error e := by
    rw [metadataOf, metadataAtPlace, hrecord]
    cases hr : recordRead decodeMetadata (some (metadataBytes (d.recorded 1 endlessMessage (F64.ofNat 10)))) with
    | error e => exact ⟨e, rfl⟩
    | ok found => exact absurd ((recordRead_metadataBytes _ _).mp hr).1 hnot
  refine ⟨kv, _, e, hrun, ?_⟩
  have hagain : draftOf kv 1 2 endlessMessage none = .error e := by
    rw [draftOf, he]
    rfl
  rw [Kv.exec, exec_append_of_honest honest_handle, id, hagain]

end CitadelAgent.Conversations
