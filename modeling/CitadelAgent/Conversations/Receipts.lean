import CitadelAgent.Conversations.CommandRoundTrip
import CitadelAgent.Conversations.Ladder

/-!
# Whose messages a receipt moves

* `exec_delivered_ack` : a delivered receipt is one `set_status` by the id it names;
* `Names` : the message of that id is the account's own, and stays so;
* `Operation.Receipt`, `Operation.Marks` : the operations that set the status of what the peer sent, `status_of_peers` that
  no other does.
-/

namespace CitadelAgent.Conversations
open Store StoreRules Engine

variable {id : String} {m m' : ConversationMessage} {n : UInt32} {own q : Cid} {kv : Kv}

section

variable {cid peer : Cid} {kv : Kv}

theorem exec_delivered_ack {message : List UInt8} {kind : AckKind} (requestId : Option String)
    (hread : Command.read message = some (.ack kind id)) (out : Outside) (k : Nat) (s : Shared) :
    (exec out ((Operation.delivered message requestId).program cid peer) k s).2.kv =
      (Kv.exec ((StoreOp.setStatus id (statusOf kind) none).program cid peer) s.kv).2 := by
  have hdelivered : delivered { message, cid, peerCid := peer, requestId } = revision cid peer (.ack kind id) := by
    rw [delivered, hread]
  rw [Operation.program, exec_discarded, hdelivered, kv_revision out (by simp), Engine.revisionOf, kv_map,
    StoreOp.program, StoreOp.snd_program]

theorem exec_delivered_reaction {message : List UInt8} {target emoji : String} {active : Bool} {at_ : F64}
    (requestId : Option String) (hread : Command.read message = some (.reaction target emoji active at_)) (out : Outside)
    (k : Nat) (s : Shared) : (exec out ((Operation.delivered message requestId).program cid peer) k s).2.kv =
      (Kv.exec ((StoreOp.react target { emoji, reactorCid := peer, at_, active }).program cid peer) s.kv).2 := by
  have hdelivered : delivered { message, cid, peerCid := peer, requestId } =
      revision cid peer (.reaction target emoji active at_) := by
    rw [delivered, hread]
  rw [Operation.program, exec_discarded, hdelivered, kv_revision out (by simp), Engine.revisionOf, kv_map,
    StoreOp.program, StoreOp.snd_program]

/-- What the id finds, if it finds anything, is the account's own. -/
def Mine (cid peer : Cid) (id : String) (kv : Kv) : Prop :=
  ∀ f, foundIn kv cid peer id = .ok (some f) → f.message.senderCid = cid

theorem Mine.setStatus (h : Reached kv) (hmine : Mine cid peer id kv) (status : MessageStatus)
    (error : Option String) : Mine cid peer id (Kv.exec ((StoreOp.setStatus id status error).program cid peer) kv).2 := by
  have hreached := h.program cid peer (.setStatus id status error)
  rw [StoreOp.program, StoreOp.snd_program] at hreached ⊢
  have hsame : (Kv.exec (Store.setStatus cid peer id status error) kv).2 = kv →
      Mine cid peer id (Kv.exec (Store.setStatus cid peer id status error) kv).2 := fun hkv => hkv.symm ▸ hmine
  cases hf : foundIn kv cid peer id with
  | error e =>
    refine hsame ?_
    rw [Store.setStatus, update, Kv.exec_bind, exec_find, hf]
    rfl
  | ok found =>
    cases found with
    | none =>
      refine hsame ?_
      rw [Store.setStatus, update, Kv.exec_bind, exec_find, hf]
      rfl
    | some f =>
      cases hc : StoreOp.statusSet status error f.message with
      | none => exact hsame (congrArg Prod.snd (exec_update_refused hf hc))
      | some c =>
        obtain ⟨kv', hrun, hmeta, hpage, hother⟩ :=
          exec_update_made (h.sited.2 cid peer).placed hf hc (sound_statusSet (sound_of_found hf).2 hc)
        have hkv : (Kv.exec (Store.setStatus cid peer id status error) kv).2 = kv' := congrArg Prod.snd hrun
        rw [hkv] at hreached ⊢
        have hkeeps := StoreOp.changed_keeps (.setStatus id status error) hc
        obtain ⟨f', hf', hmessage⟩ := foundIn_made (h.sited.2 cid peer) (hreached.sited.2 cid peer) hf
          (hkeeps.1.trans (foundIn_eq_some hf).2.1) hmeta hpage hother
        intro g hg
        rw [hf', Except.ok.injEq, Option.some.injEq] at hg
        rw [← hg, hmessage]
        exact hkeeps.2.1.trans (hmine f hf)

theorem Mine.keeps (h : Reached kv) (hmine : Mine cid peer id kv) (status : MessageStatus) (error : Option String) {id' : String}
    (hm : copyOn kv own q n id' = some m)
    (hm' : copyOn (Kv.exec ((StoreOp.setStatus id status error).program cid peer) kv).2 own q n id' = some m')
    (hother : m.senderCid ≠ own) : m'.status = m.status := by
  rcases h.makes (.setStatus id status error) hm hm' with rfl | ⟨rfl, rfl, hmade⟩
  · rfl
  rcases hmade with (rfl | rfl) | ⟨target, f, c, htarget, hf, rfl, -⟩ | ⟨now, heq, -⟩
  · rfl
  · rfl
  · cases htarget
    exact absurd (hmine f hf) hother
  · cases heq

end

/-! ## Every other operation -/

def Engine.Operation.Receipt : Operation → Prop
  | .delivered message _ => ∃ kind id, Command.read message = some (.ack kind id)
  | _ => False

def Engine.Operation.Marks : Operation → Prop
  | .markRead | .patch .. => True
  | _ => False

section

variable {out : Outside} {cid peer : Cid} {k : Nat} {s : Shared}

theorem resend_mine (hnot : ¬ Mine cid peer id s.kv) :
    (exec out ((Operation.resend id).program cid peer) k s).2.kv = s.kv := by
  unfold Mine at hnot
  push Not at hnot
  obtain ⟨f, hf, hsender⟩ := hnot
  rw [Operation.program, exec_discarded, Engine.resend, exec_locked, run_storing_bind, exec_bind, exec_store, exec_find, hf]
  dsimp only
  rw [if_pos (.inr hsender)]
  rfl

/-- Statuses that stay: the message, and what the message has become. -/
def SameStatus (own : Cid) (m m' : ConversationMessage) : Prop :=
  m'.senderCid = m.senderCid ∧ (m.senderCid ≠ own → m'.status = m.status)

theorem SameStatus.chain (h : Relation.ReflTransGen (SameStatus own) m m') :
    SameStatus own m m' := by
  induction h with
  | refl => exact ⟨rfl, fun _ => rfl⟩
  | tail _ hstep ih =>
    refine ⟨hstep.1.trans ih.1, fun hne => ?_⟩
    rw [hstep.2 (ih.1 ▸ hne), ih.2 hne]

theorem Reached.same_status (h : Reached kv) {op : StoreOp} (hop : ¬ op.SetsStatus) {c p : Cid}
    (hm : copyOn kv own q n id = some m) (hm' : copyOn (Kv.exec (op.program c p) kv).2 own q n id = some m') : SameStatus own m m' := by
  rcases h.makes op hm hm' with rfl | ⟨-, -, hmade⟩
  · exact ⟨rfl, fun _ => rfl⟩
  · exact ⟨hmade.senderCid_eq, fun _ => hmade.status_eq hop⟩

theorem Mine.same_status (h : Reached kv) {target : String} (hmine : Mine cid peer target kv) (status : MessageStatus)
    (error : Option String) (hm : copyOn kv own q n id = some m)
    (hm' : copyOn (Kv.exec ((StoreOp.setStatus target status error).program cid peer) kv).2 own q n id = some m') :
    SameStatus own m m' := by
  refine ⟨?_, hmine.keeps h status error hm hm'⟩
  rcases h.makes _ hm hm' with rfl | ⟨-, -, hmade⟩
  · rfl
  · exact hmade.senderCid_eq

/-- The messages under ids that the agent draws are the account's own. -/
def Drawn (out : Outside) (cid peer : Cid) (kv : Kv) : Prop :=
  ∀ j n m, copyOn kv cid peer n (out j .newId) = some m → m.senderCid = cid

theorem Drawn.mine (h : Reached kv) (hd : Drawn out cid peer kv) (j : Nat) : Mine cid peer (out j .newId) kv :=
  fun _ hf => hd j _ _ (copyOn_found (h.sited.2 cid peer) hf)

theorem Drawn.program (h : Reached kv) (hd : Drawn out cid peer kv) {op : StoreOp}
    (hop : ∀ message name now, op = .append message name now → message.senderCid = cid) :
    Drawn out cid peer (Kv.exec (op.program cid peer) kv).2 := by
  intro j n m' hm'
  rcases h.comes_from op hm' with ⟨m, hm⟩ | ⟨-, -, message, name, now, heq, rfl⟩
  · rcases h.makes op hm hm' with rfl | ⟨-, -, hmade⟩
    · exact hd j n _ hm
    · exact hmade.senderCid_eq.trans (hd j n m hm)
  · exact hop message name now heq

/-- No operation but those that mark changes the status of a message that is not the account's own, when the ids that the
agent draws are new. -/
theorem status_of_peers (h : Reached s.kv) (hd : Drawn out cid peer s.kv) (o : Operation) (hreceipt : ¬ o.Receipt)
    (hmarks : ¬ o.Marks) (hm : copyOn s.kv own q n id = some m)
    (hm' : copyOn (exec out (o.program cid peer) k s).2.kv own q n id = some m') :
    SameStatus own m m' := by
  -- What sets no status needs no invariant.
  have hsilent : (∀ q op, o.Calls out cid peer q op → ¬ op.SetsStatus) → SameStatus own m m' := fun hcalls =>
    .chain (Operation.copies (fun _ h => h) (fun kv q op hkv _ => hkv.program cid q op)
      (fun kv q op _ _ hkv hop => hkv.same_status (hcalls q op hop)) h hm hm')
  cases o with
  | delivered message requestId =>
    refine hsilent ?_
    rintro _ op ⟨-, command, hread, hop⟩ hsets
    cases command with
    | message envelope contents timestamp =>
      rcases hop with ⟨name, now, -, rfl⟩ | ⟨name, now, -, rfl⟩ <;> exact hsets
    | screenshot envelope takenAt =>
      obtain ⟨text, t, now, -, -, rfl⟩ := hop
      exact hsets
    | edit target contents editedAt =>
      obtain ⟨now, -, rfl⟩ := hop
      exact hsets
    | delete target =>
      obtain ⟨now, -, rfl⟩ := hop
      exact hsets
    | reaction target emoji active at_ =>
      obtain rfl := hop
      exact hsets
    | ack kind messageId => exact hreceipt ⟨kind, messageId, hread⟩
    | checkState | ephemeral | forAWindow => exact hop
  | send o =>
    refine .chain (Operation.copies (I := fun kv => Reached kv ∧ Drawn out cid peer kv) (fun _ h => h.1) ?_ ?_ ⟨h, hd⟩ hm hm')
    · rintro kv _ op ⟨hkv, hd⟩ ⟨rfl, j, ⟨message, name, now, -, hsender, -, -, rfl⟩ | ⟨status, error, rfl⟩⟩
      · refine ⟨hkv.program _ _ _, hd.program hkv ?_⟩
        rintro _ _ _ ⟨⟩
        exact hsender
      · exact ⟨hkv.program _ _ _, hd.program hkv fun _ _ _ heq => by cases heq⟩
    · rintro kv _ op a b ⟨hkv, hd⟩ ⟨rfl, j, ⟨message, name, now, -, -, -, -, rfl⟩ | ⟨status, error, rfl⟩⟩ ha hb
      · exact hkv.same_status (show ¬ (StoreOp.append message name now).SetsStatus from fun hsets => hsets) ha hb
      · exact (hd.mine hkv j).same_status hkv status error ha hb
  | resend target =>
    by_cases hmine : Mine cid peer target s.kv
    · refine .chain (Operation.copies (I := fun kv => Reached kv ∧ Mine cid peer target kv) (fun _ h => h.1) ?_ ?_ ⟨h, hmine⟩
        hm hm')
      · rintro kv _ op ⟨hkv, hmine⟩ ⟨rfl, status, error, rfl⟩
        exact ⟨hkv.program _ _ _, hmine.setStatus hkv status error⟩
      · rintro kv _ op a b ⟨hkv, hmine⟩ ⟨rfl, status, error, rfl⟩ ha hb
        exact hmine.same_status hkv status error ha hb
    · rw [resend_mine hmine, hm, Option.some.injEq] at hm'
      exact hm' ▸ ⟨rfl, fun _ => rfl⟩
  | reviseOwn target edit =>
    refine hsilent ?_
    rintro _ op ⟨-, revision, now, -, -, rfl⟩ hsets
    exact hsets
  | react target emoji active =>
    refine hsilent ?_
    rintro _ op ⟨-, at_, -, rfl⟩ hsets
    exact hsets
  | markRead => exact absurd trivial hmarks
  | record message =>
    refine hsilent ?_
    rintro _ op ⟨-, name, now, -, rfl⟩ hsets
    exact hsets
  | patch target p => exact absurd trivial hmarks
  | clear includeUnattributed =>
    refine hsilent ?_
    rintro _ op ⟨-, rfl⟩ hsets
    exact hsets
  | sweep =>
    refine hsilent ?_
    rintro _ op ⟨cutoff, now, -, rfl⟩ hsets
    exact hsets

/-- A receipt changes statuses of the account's own messages only, exactly when what its id finds is the account's own
or is not moved. -/
theorem receipts_move_own (out : Outside) (cid peer : Cid) (k : Nat) (s : Shared) (h : Reached s.kv) :
    (∀ message requestId kind id, Command.read message = some (.ack kind id) →
      ((∀ own q n id' m m', copyOn s.kv own q n id' = some m →
          copyOn (exec out ((Operation.delivered message requestId).program cid peer) k s).2.kv own q n id' = some m' →
          m'.status ≠ m.status → own = cid ∧ q = peer ∧ m.senderCid = cid) ↔
        ∀ f, foundIn s.kv cid peer id = .ok (some f) → statusAdvances f.message.status (statusOf kind) = true →
          f.message.senderCid = cid)) ∧
    ∀ o : Operation, ¬ o.Receipt → ¬ o.Marks → Drawn out cid peer s.kv → ∀ own q n id m m',
      copyOn s.kv own q n id = some m → copyOn (exec out (o.program cid peer) k s).2.kv own q n id = some m' →
      m.senderCid ≠ own → m'.status = m.status := by
  constructor
  · intro message requestId kind id hread
    rw [exec_delivered_ack requestId hread]
    constructor
    · intro honly f hf hadvances
      have hc : StoreOp.statusSet (statusOf kind) none f.message = some { f.message with
          status := statusOf kind, error := if statusOf kind = .failed then none else none } := if_pos hadvances
      obtain ⟨kv', hrun, -, hpage, -⟩ := exec_update_made (h.sited.2 cid peer).placed hf hc
        (sound_statusSet (sound_of_found hf).2 hc)
      have hkv : (Kv.exec ((StoreOp.setStatus id (statusOf kind) none).program cid peer) s.kv).2 = kv' := by
        rw [StoreOp.program, StoreOp.snd_program]
        exact congrArg Prod.snd hrun
      have hreached := h.program cid peer (.setStatus id (statusOf kind) none)
      rw [hkv] at honly hreached
      have hafter := (copyOn_eq_some (hreached.sited.2 cid peer)).mpr
        ⟨_, hpage, List.mem_map_of_mem (f.mem_replaced _), (foundIn_eq_some hf).2.1⟩
      refine (honly _ _ _ _ _ _ (copyOn_found (h.sited.2 cid peer) hf) hafter fun hsame => ?_).2.2
      rw [show f.message.status = statusOf kind from hsame.symm, statusAdvances, if_pos rfl] at hadvances
      cases hadvances
    · intro hfound own q n id' m m' hm hm' hne
      rcases h.makes _ hm hm' with rfl | ⟨rfl, rfl, hmade⟩
      · exact absurd rfl hne
      rcases hmade with (rfl | rfl) | ⟨target, f, c, htarget, hf, rfl, hc, -⟩ | ⟨now, heq, -⟩
      · exact absurd rfl hne
      · exact absurd rfl hne
      · cases htarget
        refine ⟨rfl, rfl, hfound f hf ?_⟩
        by_contra hrefused
        rw [StoreOp.changed, StoreOp.statusSet, if_neg hrefused] at hc
        cases hc
      · cases heq
  · intro o hreceipt hmarks hd own q n id m m' hm hm'
    exact (status_of_peers h hd o hreceipt hmarks hm hm').2

/-! ## A peer that acknowledges its own message -/

theorem read_ack_first (kind : AckKind) : Command.read (Command.ack kind "m1" (F64.ofNat 20)) = some (.ack kind "m1") := by
  have hread := Built.read_bytes (b := .ack kind "m1" (F64.ofNat 20)) (by
    show Short "m1"
    decide +kernel)
  exact hread

theorem Lone.copy_eq {peer : Cid} {message : ConversationMessage} (h : Lone kv own peer message) (hs : Sited kv own peer)
    (hm : copyOn kv own peer n id = some m) : m = message := by
  obtain ⟨metadata, hmeta, hlatest⟩ := h.metadata
  obtain ⟨p, hpage, honly⟩ := h.page
  obtain ⟨q, hq, hin, -⟩ := (copyOn_eq_some hs).mp hm
  by_cases hn : n = 0
  · rw [hn, hpage, Except.ok.injEq, Option.some.injEq] at hq
    rwa [← hq, honly, List.mem_singleton] at hin
  · rw [hs.newest _ hmeta n (by rw [hlatest]; exact UInt32.pos_iff_ne_zero.mpr hn)] at hq
    cases hq

theorem receipt_moves_peers : ∃ s m m', Reached s.kv ∧ copyOn s.kv 1 2 0 "m1" = some m ∧
    copyOn (exec nobody ((Operation.delivered (Command.ack .read "m1" (F64.ofNat 20)) none).program 1 2) 0 s).2.kv 1 2 0 "m1" =
      some m' ∧ m.senderCid = 2 ∧ m.status = .delivered ∧ m'.status = .read := by
  obtain ⟨kv, hkv, hlone⟩ := lone_first
  obtain ⟨m', hlone', hid, -, hstatus⟩ := hlone.setStatus hkv .read
  have hthere := (hlone'.found ((hkv.program 1 2 _).sited.2 1 2)).1
  rw [hid] at hthere
  refine ⟨⟨kv, fun _ => 0, []⟩, firstMessage.norm, m', hkv, (hlone.found (hkv.sited.2 1 2)).1, ?_, rfl, rfl, hstatus⟩
  rw [exec_delivered_ack none (read_ack_first .read)]
  exact hthere

/-- A receipt that the peer's message was not delivered moves nothing, and neither does a reaction. -/
theorem receipts_move_own_refused : ∃ s m, Reached s.kv ∧ copyOn s.kv 1 2 0 "m1" = some m ∧ m.senderCid = 2 ∧
    (∀ own q n id m m', copyOn s.kv own q n id = some m →
      copyOn (exec nobody ((Operation.delivered (Command.ack .failed "m1" (F64.ofNat 20)) none).program 1 2) 0 s).2.kv own q n
        id = some m' → m'.status ≠ m.status → own = 1 ∧ q = 2 ∧ m.senderCid = 1) ∧
    ∀ own q n id m m', copyOn s.kv own q n id = some m →
      copyOn (exec nobody ((Operation.react "m1" "ok" true).program 1 2) 0 s).2.kv own q n id = some m' →
      m.senderCid ≠ own → m'.status = m.status := by
  obtain ⟨kv, hkv, hlone⟩ := lone_first
  have hs := hkv.sited.2 1 2
  obtain ⟨hcopy, -, f, hf, hmessage⟩ := hlone.found hs
  let s : Shared := ⟨kv, fun _ => 0, []⟩
  obtain ⟨hreceipt, hrest⟩ := receipts_move_own nobody 1 2 0 s hkv
  refine ⟨s, firstMessage.norm, hkv, hcopy, rfl, (hreceipt _ none .failed "m1" (read_ack_first .failed)).mpr ?_, ?_⟩
  · intro f' hf' hadvances
    rw [show foundIn s.kv 1 2 "m1" = .ok (some f) from hf, Except.ok.injEq, Option.some.injEq] at hf'
    rw [← hf', hmessage] at hadvances
    cases hadvances
  · refine hrest (.react "m1" "ok" true) (fun h => h) (fun h => h) fun j n m hm => ?_
    obtain ⟨p, hp, hin, hid⟩ := (copyOn_eq_some hs).mp hm
    rw [hlone.copy_eq hs hm, show nobody j .newId = "id" from rfl] at hid
    exact absurd hid (by decide)

end

end CitadelAgent.Conversations
