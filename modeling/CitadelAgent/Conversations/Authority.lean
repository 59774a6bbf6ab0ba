import CitadelAgent.Conversations.MarkRead
import CitadelAgent.Conversations.Receipts
import CitadelAgent.Conversations.Converge

/-!
# What a peer can touch

Payloads that one peer delivers to an account, one after another.

* `ByPeer` : the calls of the store that they come to;
* `Authored` : what stays of a message, `ByPeer.authored` that such a call takes none of it from another's message;
* `othersReactions` : the reactions that are not the peer's, `others_fold` that a reaction of the peer's leaves them;
* `Deliveries`, `peer_cannot_touch` : any number of payloads.
-/

namespace CitadelAgent.Conversations
open Store StoreRules Engine Result

/-! ## The calls of a peer -/

/-- A call of the store about the peer that one of its payloads makes. -/
inductive ByPeer (cid peer : Cid) : StoreOp → Prop
  | append (message : ConversationMessage) (name : Option String) (now : F64) (hs : message.senderCid = peer)
    (hr : message.recipientCid = cid) (hreact : message.reactions = none) : ByPeer cid peer (.append message name now)
  | setPeerUsername (name : String) (now : F64) : ByPeer cid peer (.setPeerUsername name now)
  | revise (id : String) (revision : Revision) (now : F64) : ByPeer cid peer (.revise id peer revision now)
  | react (id : String) (change : Reaction) (hreactor : change.reactorCid = peer) : ByPeer cid peer (.react id change)
  | setStatus (id : String) (status : MessageStatus) (error : Option String) : ByPeer cid peer (.setStatus id status error)

section

variable {cid peer : Cid} {kv kv' : Kv} {op : StoreOp} {n : UInt32}

theorem byPeer_of_inboundCalls {command : Inbound} (h : inboundCalls cid peer command op) : ByPeer cid peer op := by
  cases command with
  | message envelope contents timestamp =>
    rcases h with ⟨name, now, -, rfl⟩ | ⟨name, now, -, rfl⟩
    · exact .append _ _ _ rfl rfl rfl
    · exact .setPeerUsername _ _
  | screenshot envelope takenAt =>
    obtain ⟨text, t, now, -, -, rfl⟩ := h
    exact .append _ _ _ rfl rfl rfl
  | edit target contents editedAt =>
    obtain ⟨now, -, rfl⟩ := h
    exact .revise _ _ _
  | delete target =>
    obtain ⟨now, -, rfl⟩ := h
    exact .revise _ _ _
  | reaction target emoji active at_ =>
    obtain rfl := h
    exact .react _ _ rfl
  | ack kind messageId =>
    obtain rfl := h
    exact .setStatus _ _ _
  | checkState | ephemeral | forAWindow => exact h.elim

theorem sound_received {envelope : Envelope} (henvelope : AllFinite envelope.numbers) (contents : String) {t : F64}
    (ht : t.isFinite = true) : (fromPeer cid peer envelope contents t).Sound where
  timestamp := ht
  index := henvelope _ List.mem_cons_self
  attachments := by
    intro list hlist a ha
    have hlist : envelope.attachments = some list := hlist
    refine henvelope _ (List.mem_cons_of_mem _ (List.mem_flatMap.mpr ⟨a, ?_, List.mem_singleton_self _⟩))
    rwa [hlist, Option.getD_some]
  reactions := fun list hlist => nomatch hlist

theorem sound_of_inboundCalls {command : Inbound} (h : inboundCalls cid peer command op)
    (hfin : AllFinite command.numbers) : op.Sound := by
  cases command with
  | message envelope contents timestamp =>
    have htime := hfin timestamp List.mem_cons_self
    have henvelope : AllFinite envelope.numbers := fun x hx => hfin x (List.mem_cons_of_mem _ hx)
    rcases h with ⟨name, now, hnow, rfl⟩ | ⟨name, now, hnow, rfl⟩
    · exact ⟨sound_received henvelope contents htime, hnow.isFinite⟩
    · exact hnow.isFinite
  | screenshot envelope takenAt =>
    obtain ⟨text, t, now, ht, hnow, rfl⟩ := h
    have henvelope : AllFinite envelope.numbers := fun x hx => hfin x (List.mem_append_right _ hx)
    have htime : t.isFinite = true := by
      rcases ht with rfl | hclock
      · exact hfin t (List.mem_append_left _ (List.mem_singleton_self t))
      · exact hclock.isFinite
    have hsound : (fromPeer cid peer envelope text t).Sound := sound_received henvelope text htime
    exact ⟨⟨hsound.timestamp, hsound.index, hsound.attachments, hsound.reactions⟩, hnow.isFinite⟩
  | edit target contents editedAt =>
    obtain ⟨now, hnow, rfl⟩ := h
    exact hnow.isFinite
  | delete target =>
    obtain ⟨now, hnow, rfl⟩ := h
    exact hnow.isFinite
  | reaction target emoji active at_ =>
    obtain rfl := h
    exact trivial
  | ack kind messageId =>
    obtain rfl := h
    exact trivial
  | checkState | ephemeral | forAWindow => exact h.elim

/-! ## What was written -/

/-- The numbers of the message are those that a record gives back. -/
structure Settled (m : ConversationMessage) : Prop where
  timestamp : m.timestamp.norm = m.timestamp
  index : m.index.norm = m.index
  editedAt : (m.editedAt.filter F64.isFinite).map F64.norm = m.editedAt

theorem settled_norm (m : ConversationMessage) : Settled m.norm where
  timestamp := F64.norm_norm _
  index := F64.norm_norm _
  editedAt := ConversationMessage.finite_norm_norm _

theorem Reached.settled (h : Reached kv) {m : ConversationMessage} (hm : m ∈ loadedOn kv cid peer n) : Settled m := by
  induction h with
  | refl =>
    have hnone : loadedOn ∅ cid peer n = [] := by simp [loadedOn, pageOf, pageAtPlace, Kv.at_, recordRead]
    rw [hnone] at hm
    cases hm
  | @tail kv₁ kv₂ hprev hcall ih =>
    obtain ⟨own, q, op, rfl⟩ := hcall
    have ht := Reached.touched hprev own q op
    by_cases hsame : cid = own ∧ peer = q
    · obtain ⟨rfl, rfl⟩ := hsame
      obtain ⟨p, hp, hin⟩ := mem_loadedOn.mp hm
      have hafter := ht.page n
      rw [hp] at hafter
      rcases hafter with hold | ⟨q, q', -, -, hw⟩ | ⟨message, name, now, -, -, hw⟩ | ⟨b, -, hgone⟩
      · exact ih (mem_loadedOn.mpr ⟨p, hold.symm, hin⟩)
      · rw [Option.some.inj hw.eq_some] at hin
        obtain ⟨x, -, rfl⟩ := List.mem_map.mp hin
        exact settled_norm x
      · rw [Option.some.inj hw.eq_some] at hin
        obtain ⟨x, -, rfl⟩ := List.mem_map.mp hin
        exact settled_norm x
      · cases hgone
    · rw [loadedOn, ht.apart.frame.pageOf hsame n] at hm
      exact ih hm

/-- The message is still the one that was written. -/
structure Authored (m x : ConversationMessage) : Prop where
  id : x.id = m.id
  content : x.content = m.content
  senderCid : x.senderCid = m.senderCid
  recipientCid : x.recipientCid = m.recipientCid
  timestamp : x.timestamp = m.timestamp
  index : x.index = m.index
  editedAt : x.editedAt = m.editedAt

namespace Authored

variable {m x y : ConversationMessage}

theorem refl (m : ConversationMessage) : Authored m m := ⟨rfl, rfl, rfl, rfl, rfl, rfl, rfl⟩

theorem trans (h : Authored m x) (h' : Authored x y) : Authored m y :=
  ⟨h'.id.trans h.id, h'.content.trans h.content, h'.senderCid.trans h.senderCid, h'.recipientCid.trans h.recipientCid,
    h'.timestamp.trans h.timestamp, h'.index.trans h.index, h'.editedAt.trans h.editedAt⟩

theorem norm (h : Authored m x) (hm : Settled m) : Authored m x.norm where
  id := h.id
  content := h.content
  senderCid := h.senderCid
  recipientCid := h.recipientCid
  timestamp := (congrArg F64.norm h.timestamp).trans hm.timestamp
  index := (congrArg F64.norm h.index).trans hm.index
  editedAt := (congrArg (fun o : Option F64 => (o.filter F64.isFinite).map F64.norm) h.editedAt).trans hm.editedAt

end Authored

namespace ByPeer

variable {m x : ConversationMessage}

theorem takes (h : ByPeer cid peer op) (ht : op.Takes m) : m.senderCid = peer := by
  cases h with
  | revise id revision now =>
    cases revision with
    | edit contents editedAt => exact ht.elim
    | delete => exact ht
  | append | setPeerUsername | react | setStatus => exact ht.elim

theorem changed (h : ByPeer cid peer op) (hne : m.senderCid ≠ peer) (hc : op.changed m = some x) : Authored m x := by
  have hkept : x.content = m.content ∧ x.editedAt = m.editedAt := by
    cases h with
    | revise id revision now =>
      cases revision with
      | edit contents editedAt =>
        rw [StoreOp.changed, if_neg hne] at hc
        cases hc
      | delete => cases hc
    | react id change =>
      obtain ⟨list, -, rfl⟩ := Option.map_eq_some_iff.mp hc
      exact ⟨rfl, rfl⟩
    | setStatus id status error =>
      rw [StoreOp.changed, StoreOp.statusSet] at hc
      split at hc
      · cases hc
        exact ⟨rfl, rfl⟩
      · cases hc
    | append | setPeerUsername => cases hc
  obtain ⟨hid, hsender, hrecipient, htime, hindex⟩ := op.changed_keeps hc
  exact ⟨hid, hkept.1, hsender, hrecipient, htime, hindex, hkept.2⟩

theorem makes (h : ByPeer cid peer op) (hm : Settled m) (hne : m.senderCid ≠ peer) (hmade : op.Makes cid peer kv m x) :
    Authored m x := by
  rcases hmade with (rfl | rfl) | ⟨id, f, c, -, -, -, hc, rfl⟩ | ⟨now, rfl, -⟩
  · exact .refl _
  · exact (Authored.refl m).norm hm
  · exact (h.changed hne hc).norm hm
  · cases h

theorem not_loses (h : ByPeer cid peer op) (hne : m.senderCid ≠ peer) : ¬ op.Loses cid peer kv m := by
  rintro (⟨id, f, -, -, -, ht⟩ | ⟨cutoff, now, rfl, -⟩ | ⟨b, rfl⟩)
  · exact hne (h.takes ht)
  · cases h
  · cases h

theorem authored (h : ByPeer cid peer op) (hop : op.Sound) (hkv : Reached kv) (hm : m ∈ loadedOn kv cid peer n)
    (hne : m.senderCid ≠ peer) :
    ∃ x ∈ loadedOn (Kv.exec (op.program cid peer) kv).2 cid peer n, Authored m x := by
  obtain ⟨p, hp, -⟩ := mem_loadedOn.mp hm
  have ht := hkv.touched cid peer op
  obtain ⟨found, hfound⟩ := ht.page_ok hop hp
  rcases ht.fate (hkv.sited.2 cid peer) hfound hm with ⟨x, hx, hmade⟩ | hlost
  · exact ⟨x, hx, h.makes (hkv.settled hm) hne hmade⟩
  · exact absurd hlost (h.not_loses hne)

theorem origin (h : ByPeer cid peer op) (hkv : Reached kv)
    (hx : x ∈ loadedOn (Kv.exec (op.program cid peer) kv).2 cid peer n) :
    (∃ m ∈ loadedOn kv cid peer n, x.id = m.id ∧ x.senderCid = m.senderCid ∧ x.recipientCid = m.recipientCid) ∨
      (x.senderCid = peer ∧ x.recipientCid = cid) := by
  obtain ⟨p', hp', hin⟩ := mem_loadedOn.mp hx
  rcases (hkv.touched cid peer op).origin (hkv.sited.2 cid peer) hp' hin with
    ⟨p, hp, m, hm, hmade⟩ | ⟨message, name, now, rfl, rfl, -⟩
  · exact .inl ⟨m, mem_loadedOn.mpr ⟨p, hp, hm⟩, hmade.id_eq, hmade.senderCid_eq, hmade.recipientCid_eq⟩
  · cases h with
    | append message name now hs hr => exact .inr ⟨hs, hr⟩

theorem loads (h : ByPeer cid peer op) (hop : op.Sound) (hkv : Loads kv cid peer) :
    Loads (Kv.exec (op.program cid peer) kv).2 cid peer := by
  cases h with
  | append message name now hs hr hreact =>
    rw [StoreOp.program, StoreOp.snd_program, loads_append hkv rfl rfl rfl Iff.rfl hreact name hop.2]
    rintro ⟨d, -, -, hun, -⟩
    exact hun hop.1.readable
  | setPeerUsername name now => exact (loads_setPeerUsername name hop).mpr hkv
  | revise id revision now =>
    rw [StoreOp.program, StoreOp.snd_program]
    exact hkv.revise id peer revision hop
  | react id change =>
    rw [StoreOp.program, StoreOp.snd_program]
    exact hkv.react id change
  | setStatus id status error =>
    rw [StoreOp.program, StoreOp.snd_program]
    exact hkv.setStatus id status error

end ByPeer

end

/-! ## Reactions of others -/

def othersReactions (peer : Cid) (m : ConversationMessage) : List Reaction :=
  (Reactions.entries m.reactions).filter fun r => r.reactorCid ≠ peer

theorem Reactions.others_fold {current : Option (List Reaction)} {change : Reaction} {list : List Reaction}
    (h : fold current change = some list) :
    list.filter (fun r => r.reactorCid ≠ change.reactorCid) =
      (entries current).filter (fun r => r.reactorCid ≠ change.reactorCid) ∧
    list.length ≤ (entries current).length + 1 := by
  unfold fold at h
  split_ifs at h
  dsimp only at h
  split at h
  · split_ifs at h
    cases h
    refine ⟨?_, by rw [List.length_map]; exact Nat.le_succ _⟩
    show _ = (current.getD []).filter _
    -- An entry that is replaced is the change's reactor's, before and after.
    induction current.getD [] with
    | nil => rfl
    | cons r rest ih =>
      rw [List.map_cons]
      by_cases hsame : same change r = true
      · have hreactor : r.reactorCid = change.reactorCid := by
          simp only [same, Bool.and_eq_true, decide_eq_true_eq] at hsame
          exact hsame.1
        rw [if_pos hsame, List.filter_cons_of_neg (by simp), List.filter_cons_of_neg (by simp [hreactor]), ih]
      · rw [if_neg hsame, List.filter_cons, List.filter_cons, ih]
  · cases h
    refine ⟨?_, by rw [List.length_append]; exact Nat.le_refl _⟩
    rw [List.filter_append, List.filter_cons_of_neg (by simp), List.filter_nil, List.append_nil]

section

variable {cid peer : Cid} {kv : Kv} {op : StoreOp} {n : UInt32} {m x : ConversationMessage}

theorem othersReactions_norm (peer : Cid) (hm : m.Sound) (hlen : (Reactions.entries m.reactions).length < 2 ^ 64) :
    othersReactions peer m.norm = (othersReactions peer m).map Reaction.norm ∧
      (Reactions.entries m.norm.reactions).length = (Reactions.entries m.reactions).length := by
  have hentries : Reactions.entries m.norm.reactions = (Reactions.entries m.reactions).map Reaction.norm := by
    show (m.reactions.bind Reactions.reread).getD [] = (m.reactions.getD []).map Reaction.norm
    cases hr : m.reactions with
    | none => rfl
    | some list =>
      rw [hr] at hlen
      rw [Option.bind_some, Reactions.reread_eq (hm.reactions list hr).2]
      split_ifs with hnone
      · rcases hnone with rfl | hlong
        · rfl
        · exact absurd hlen (Nat.not_lt.mpr hlong)
      · rfl
  rw [othersReactions, othersReactions, hentries, List.filter_map, List.length_map]
  exact ⟨rfl, rfl⟩

/-- The reactions of others are as they were, but for what a record does to a time, and there are no more in all. -/
def KeepsOthers (peer : Cid) (m x : ConversationMessage) : Prop :=
  (Reactions.entries m.reactions).length < 2 ^ 64 →
    (othersReactions peer x).map Reaction.norm = (othersReactions peer m).map Reaction.norm ∧
      (Reactions.entries x.reactions).length ≤ (Reactions.entries m.reactions).length

theorem map_norm_norm (list : List Reaction) : (list.map Reaction.norm).map Reaction.norm = list.map Reaction.norm := by
  simp [Reaction.norm, Function.comp_def]

theorem KeepsOthers.norm (hm : m.Sound) : KeepsOthers peer m m.norm := by
  intro hlen
  obtain ⟨hothers, hcount⟩ := othersReactions_norm peer hm hlen
  rw [hothers, map_norm_norm]
  exact ⟨rfl, hcount.le⟩

theorem KeepsOthers.chain (h : Relation.ReflTransGen (KeepsOthers peer) m x) : KeepsOthers peer m x := by
  induction h with
  | refl => exact fun _ => ⟨rfl, Nat.le_refl _⟩
  | tail _ hstep ih =>
    intro hlen
    obtain ⟨hothers, hcount⟩ := ih hlen
    obtain ⟨hothers', hcount'⟩ := hstep (Nat.lt_of_le_of_lt hcount hlen)
    exact ⟨hothers'.trans hothers, hcount'.trans hcount⟩

theorem ByPeer.keepsOthers (h : ByPeer cid peer op) (hop : ∀ id change, op ≠ .react id change) (hm : m.Sound)
    (hmade : op.Makes cid peer kv m x) : KeepsOthers peer m x := by
  rcases hmade with (rfl | rfl) | ⟨id, f, c, -, -, -, hc, rfl⟩ | ⟨now, rfl, -⟩
  · exact fun _ => ⟨rfl, Nat.le_refl _⟩
  · exact .norm hm
  · have hsame : c.reactions = m.reactions := by
      cases h with
      | revise id revision now =>
        cases revision with
        | edit contents editedAt =>
          rw [StoreOp.changed] at hc
          split_ifs at hc
          cases hc
          rfl
        | delete => cases hc
      | react id change => exact absurd rfl (hop id change)
      | setStatus id status error =>
        rw [StoreOp.changed, StoreOp.statusSet] at hc
        split at hc
        · cases hc
          rfl
        · cases hc
      | append | setPeerUsername => cases hc
    have hkept : KeepsOthers peer c c.norm := .norm (op.changed_sound hc hm)
    have hothers : othersReactions peer c = othersReactions peer m := by rw [othersReactions, othersReactions, hsame]
    rwa [KeepsOthers, hothers, hsame] at hkept
  · cases h

theorem sound_of_copy (hkv : Reached kv) {id : String} (hm : copyOn kv cid peer n id = some m) : m.Sound := by
  obtain ⟨p, hp, hin, -⟩ := (copyOn_eq_some (hkv.sited.2 cid peer)).mp hm
  exact (sound_of_pageOf hp).messages m hin

/-- A payload of the peer's leaves the reactions of others on every message that stays, as on every list in memory that has
room for one more. -/
theorem delivered_keepsOthers {s : Shared} (hkv : Reached s.kv) (out : Outside) (k : Nat) (message : List UInt8)
    (requestId : Option String) {id : String} (hm : copyOn s.kv cid peer n id = some m)
    (hx : copyOn (exec out ((Operation.delivered message requestId).program cid peer) k s).2.kv cid peer n id = some x)
    (hroom : (Reactions.entries m.reactions).length + 1 < 2 ^ 64) :
    (othersReactions peer x).map Reaction.norm = (othersReactions peer m).map Reaction.norm := by
  by_cases hreaction : ∃ target emoji active at_, Command.read message = some (.reaction target emoji active at_)
  · obtain ⟨target, emoji, active, at_, hread⟩ := hreaction
    rw [exec_delivered_reaction requestId hread] at hx
    rcases hkv.makes _ hm hx with rfl | ⟨-, -, (rfl | rfl) | ⟨_, f, c, -, -, -, hc, rfl⟩ | ⟨now, hop, -⟩⟩
    · rfl
    · rfl
    · exact (KeepsOthers.norm (sound_of_copy hkv hm) (Nat.lt_of_succ_lt hroom)).1
    · have hsound := StoreOp.changed_sound _ hc (sound_of_copy hkv hm)
      obtain ⟨list, hl, rfl⟩ := Option.map_eq_some_iff.mp hc
      obtain ⟨hothers, hcount⟩ := Reactions.others_fold hl
      exact (KeepsOthers.norm hsound (Nat.lt_of_le_of_lt hcount hroom)).1.trans (congrArg (List.map Reaction.norm) hothers)
    · cases hop
  · refine (KeepsOthers.chain (Operation.copies (o := .delivered message requestId) (I := Reached) (fun _ h => h)
      (fun kv q op hkv _ => hkv.program cid q op) ?_ hkv hm hx) (Nat.lt_of_succ_lt hroom)).1
    rintro kv _ op a b hkv ⟨rfl, command, hread, hcall⟩ ha hb
    rcases hkv.makes op ha hb with rfl | ⟨-, -, hmade⟩
    · exact fun _ => ⟨rfl, Nat.le_refl _⟩
    · refine (byPeer_of_inboundCalls hcall).keepsOthers ?_ (sound_of_copy hkv ha) hmade
      rintro target change rfl
      cases command with
      | message envelope contents timestamp => rcases hcall with ⟨name, now, -, hop⟩ | ⟨name, now, -, hop⟩ <;> cases hop
      | screenshot envelope takenAt =>
        obtain ⟨text, t, now, -, -, hop⟩ := hcall
        cases hop
      | edit target contents editedAt =>
        obtain ⟨now, -, hop⟩ := hcall
        cases hop
      | delete target =>
        obtain ⟨now, -, hop⟩ := hcall
        cases hop
      | reaction target emoji active at_ => exact hreaction ⟨target, emoji, active, at_, hread⟩
      | ack kind messageId => cases hcall
      | checkState | ephemeral | forAWindow => exact hcall

end

/-! ## Any number of payloads -/

/-- The bucket before these payloads of the peer's were delivered to the account, one after another, and after it, whatever
the agent around the engine answered. -/
inductive Deliveries (cid peer : Cid) : List (List UInt8) → Kv → Kv → Prop
  | none (kv : Kv) : Deliveries cid peer [] kv kv
  | next {payloads : List (List UInt8)} {kv : Kv} (out : Outside) (k : Nat) (s : Shared) (message : List UInt8)
    (requestId : Option String) (hbefore : Deliveries cid peer payloads kv s.kv) :
    Deliveries cid peer (payloads ++ [message]) kv
      (exec out ((Operation.delivered message requestId).program cid peer) k s).2.kv

def FinitePayload (message : List UInt8) : Prop := ∀ command, Command.read message = some command → AllFinite command.numbers

def PeerCall (cid peer : Cid) (kv kv' : Kv) : Prop :=
  ∃ op, ByPeer cid peer op ∧ op.Sound ∧ kv' = (Kv.exec (op.program cid peer) kv).2

section

variable {cid peer : Cid} {kv kv' : Kv} {n : UInt32} {payloads : List (List UInt8)}

theorem delivered_peerCalls {message : List UInt8} (hfin : FinitePayload message) (requestId : Option String) (out : Outside)
    (k : Nat) (s : Shared) : Relation.ReflTransGen (PeerCall cid peer) s.kv
      (exec out ((Operation.delivered message requestId).program cid peer) k s).2.kv := by
  obtain ⟨kv₁, hfirst, hrest⟩ := (Operation.delivered message requestId).byCalls out cid peer k s
  have hcall : ∀ q op, (Operation.delivered message requestId).Calls out cid peer q op → ∀ kv,
      PeerCall cid peer kv (Kv.exec (op.program cid q) kv).2 := by
    rintro _ op ⟨rfl, command, hread, hop⟩ kv
    exact ⟨op, byPeer_of_inboundCalls hop, sound_of_inboundCalls hop (hfin command hread), rfl⟩
  have hrest' : Relation.ReflTransGen (PeerCall cid peer) kv₁
      (exec out ((Operation.delivered message requestId).program cid peer) k s).2.kv := by
    refine Relation.ReflTransGen.mono ?_ _ _ hrest
    rintro a _ ⟨q, op, ⟨hop, -⟩, rfl⟩
    exact hcall q op hop a
  cases hfirst with
  | refl => exact hrest'
  | single hfirst =>
    obtain ⟨q, op, ⟨hop, -⟩, rfl⟩ := hfirst
    exact hrest'.head (hcall q op hop _)

theorem Deliveries.peerCalls (h : Deliveries cid peer payloads kv kv') (hfin : ∀ message ∈ payloads, FinitePayload message) :
    Relation.ReflTransGen (PeerCall cid peer) kv kv' := by
  induction h with
  | none kv => exact .refl
  | next out k s message requestId _ ih =>
    have hbefore := ih fun x hx => hfin x (List.mem_append_left _ hx)
    have hlast := hfin message (List.mem_append_right _ (List.mem_singleton_self message))
    exact hbefore.trans (delivered_peerCalls hlast requestId out k s)

/-- What calls of the peer's leave of another's messages, and what they add. -/
structure Untouched (cid peer : Cid) (kv kv' : Kv) : Prop where
  authored : ∀ n, ∀ m ∈ loadedOn kv cid peer n, m.senderCid ≠ peer → ∃ x ∈ loadedOn kv' cid peer n, Authored m x
  origin : ∀ n, ∀ x ∈ loadedOn kv' cid peer n,
    (∃ m ∈ loadedOn kv cid peer n, x.id = m.id ∧ x.senderCid = m.senderCid ∧ x.recipientCid = m.recipientCid) ∨
      (x.senderCid = peer ∧ x.recipientCid = cid)
  loads : Loads kv cid peer → Loads kv' cid peer
  apart : Apart cid peer kv kv'

theorem Untouched.refl (cid peer : Cid) (kv : Kv) : Untouched cid peer kv kv :=
  ⟨fun _ m hm _ => ⟨m, hm, .refl m⟩, fun _ x hx => .inl ⟨x, hx, rfl, rfl, rfl⟩, id, .refl _ _ _⟩

theorem Untouched.call (h : Untouched cid peer kv kv') (hkv : Reached kv') {op : StoreOp} (hpeer : ByPeer cid peer op)
    (hop : op.Sound) : Untouched cid peer kv (Kv.exec (op.program cid peer) kv').2 where
  authored := by
    intro n m hm hne
    obtain ⟨x, hx, hmx⟩ := h.authored n m hm hne
    obtain ⟨y, hy, hxy⟩ := hpeer.authored hop hkv hx (hmx.senderCid ▸ hne)
    exact ⟨y, hy, hmx.trans hxy⟩
  origin := by
    intro n y hy
    rcases hpeer.origin hkv hy with ⟨x, hx, hid, hsender, hrecipient⟩ | hnew
    · rcases h.origin n x hx with ⟨m, hm, hid', hsender', hrecipient'⟩ | ⟨hsender', hrecipient'⟩
      · exact .inl ⟨m, hm, hid.trans hid', hsender.trans hsender', hrecipient.trans hrecipient'⟩
      · exact .inr ⟨hsender.trans hsender', hrecipient.trans hrecipient'⟩
    · exact .inr hnew
  loads := fun hl => hpeer.loads hop (h.loads hl)
  apart := h.apart.trans (hkv.touched cid peer op).apart

theorem untouched_of_peerCalls (hkv : Reached kv) (h : Relation.ReflTransGen (PeerCall cid peer) kv kv') :
    Reached kv' ∧ Untouched cid peer kv kv' := by
  induction h with
  | refl => exact ⟨hkv, .refl _ _ _⟩
  | tail _ hcall ih =>
    obtain ⟨hkv', hkept⟩ := ih
    obtain ⟨op, hpeer, hop, rfl⟩ := hcall
    exact ⟨hkv'.program cid peer op, hkept.call hkv' hpeer hop⟩

/-- Payloads of a peer's, in any number and with finite numbers, leave each message that is not the peer's as it was
written, and store only what is from the peer to the account; no payload changes a reaction of another's. -/
theorem peer_cannot_touch (hkv : Reached kv) (h : Deliveries cid peer payloads kv kv')
    (hfin : ∀ message ∈ payloads, FinitePayload message) :
    Untouched cid peer kv kv' ∧
    ∀ (out : Outside) (k : Nat) (s : Shared) (message : List UInt8) (requestId : Option String), s.kv = kv' →
      ∀ n id m x, copyOn kv' cid peer n id = some m →
        copyOn (exec out ((Operation.delivered message requestId).program cid peer) k s).2.kv cid peer n id = some x →
        (Reactions.entries m.reactions).length + 1 < 2 ^ 64 →
        (othersReactions peer x).map Reaction.norm = (othersReactions peer m).map Reaction.norm := by
  obtain ⟨hkv', hkept⟩ := untouched_of_peerCalls hkv (h.peerCalls hfin)
  refine ⟨hkept, ?_⟩
  rintro out k s message requestId rfl n id m x hm hx hroom
  exact delivered_keepsOthers hkv' out k message requestId hm hx hroom

end

/-! ## A peer that deletes what it did not write -/

def ownMessage : ConversationMessage := .text "m1" "hello" 1 2 (F64.ofNat 1) (F64.ofNat 0) .sent

theorem sound_own : (StoreOp.append ownMessage none (F64.ofNat 10)).Sound :=
  ⟨⟨sound_sent.1.timestamp, sound_sent.1.index, fun list hlist => (nomatch hlist), fun list hlist => (nomatch hlist)⟩,
    sound_sent.2⟩

def deletePayload : List UInt8 := (Built.delete "m1" (F64.ofNat 20) textEnvelope).bytes

theorem read_deletePayload : Command.read deletePayload = some (.delete "m1") := by
  have hshort : Short "m1" := by
    show (Cbor.utf8 "m1").length < 2 ^ 64
    decide +kernel
  have henvelope : textEnvelope.Sized :=
    ⟨hshort, fun t ht => (nomatch ht), fun list hlist => (nomatch hlist), fun list hlist => (nomatch hlist),
      fun t ht => (nomatch ht), fun t ht => (nomatch ht)⟩
  have hread := Built.read_bytes (b := .delete "m1" (F64.ofNat 20) textEnvelope) ⟨hshort, henvelope⟩
  exact hread

/-- The message of account 1's is still there after account 2 has sent the delete. -/
theorem peer_cannot_touch_delete : ∃ kv kv' m, Reached kv ∧ Deliveries 1 2 [deletePayload] kv kv' ∧
    m ∈ loadedOn kv 1 2 0 ∧ m.senderCid = 1 ∧ ∃ x ∈ loadedOn kv' 1 2 0, Authored m x := by
  obtain ⟨kv, r, p, hexec, -, -, hpage, -, hmessages⟩ := append_alone 1 2 sound_own
  have hkv : Reached kv := by
    have hempty : Reached ∅ := .refl
    have hcall := hempty.program 1 2 (.append ownMessage none (F64.ofNat 10))
    rwa [StoreOp.program, StoreOp.snd_program, hexec] at hcall
  have hm : ownMessage.norm ∈ loadedOn kv 1 2 0 := by
    rw [loadedOn_eq hpage, hmessages]
    exact List.mem_singleton_self _
  have hrun : Deliveries 1 2 [deletePayload] kv _ := .next nobody 0 ⟨kv, fun _ => 0, []⟩ deletePayload none (.none kv)
  have hfin : ∀ message ∈ [deletePayload], FinitePayload message := by
    intro message hmem command hread
    rw [List.mem_singleton.mp hmem, read_deletePayload] at hread
    rw [← Option.some.inj hread]
    rintro _ ⟨⟩
  have hkept := (peer_cannot_touch hkv hrun hfin).1
  exact ⟨kv, _, _, hkv, hrun, hm, rfl, hkept.authored 0 _ hm (by decide)⟩

end CitadelAgent.Conversations
