import Mathlib

/-!
# Channels under credit

A sender queues items and sends them in order; some of the items cost a credit each, and the reader hands a credit back
for each of those it has read.

* `drain` : what a queue sends at once, and what it keeps;
* `Channel` : a queue, the items on the wire, the items read, and the credits on their way back;
* `Channel.Ok` : no credit is lost or made up, and nothing is held back that could be sent;
* `Channel.text` : everything queued so far, which sending and reading leave as it is;
* `Ok.sent_le` : never more paid items sent than the first credits and those handed back.
-/

namespace Credit

variable {α : Type} (costs : α → Bool)

/-- What a queue sends with `credit` credits: the items sent, the credits left, the items kept. -/
def drain : ℕ → List α → List α × ℕ × List α
  | credit, [] => ([], credit, [])
  | credit, x :: queued =>
      if costs x = true then
        match credit with
        | 0 => ([], 0, x :: queued)
        | credit + 1 => (x :: (drain credit queued).1, (drain credit queued).2)
      else (x :: (drain credit queued).1, (drain credit queued).2)

theorem drain_nil (credit : ℕ) : drain costs credit [] = ([], credit, []) := rfl

theorem drain_free {x : α} (hx : costs x = false) (credit : ℕ) (queued : List α) :
    drain costs credit (x :: queued) = (x :: (drain costs credit queued).1, (drain costs credit queued).2) := by
  simp [drain, hx]

theorem drain_paid {x : α} (hx : costs x = true) (credit : ℕ) (queued : List α) :
    drain costs (credit + 1) (x :: queued) = (x :: (drain costs credit queued).1, (drain costs credit queued).2) := by
  simp [drain, hx]

theorem drain_stuck {x : α} (hx : costs x = true) (queued : List α) :
    drain costs 0 (x :: queued) = ([], 0, x :: queued) := by
  simp [drain, hx]

theorem drain_cons (credit : ℕ) (x : α) (queued : List α) :
    (costs x = true ∧ credit = 0 ∧ drain costs credit (x :: queued) = ([], 0, x :: queued)) ∨
      ∃ left, credit = left + (if costs x = true then 1 else 0) ∧
        drain costs credit (x :: queued) = (x :: (drain costs left queued).1, (drain costs left queued).2) := by
  cases hx : costs x with
  | false => exact Or.inr ⟨credit, by simp, drain_free costs hx credit queued⟩
  | true =>
      cases credit with
      | zero => exact Or.inl ⟨rfl, rfl, drain_stuck costs hx queued⟩
      | succ credit => exact Or.inr ⟨credit, by simp, drain_paid costs hx credit queued⟩

theorem drain_append (credit : ℕ) (queued : List α) :
    (drain costs credit queued).1 ++ (drain costs credit queued).2.2 = queued := by
  induction queued generalizing credit with
  | nil => rfl
  | cons x queued ih =>
      rcases drain_cons costs credit x queued with ⟨-, -, h⟩ | ⟨left, -, h⟩
      · rw [h]
        rfl
      · rw [h, List.cons_append, ih left]

theorem drain_credit (credit : ℕ) (queued : List α) :
    (drain costs credit queued).1.countP costs + (drain costs credit queued).2.1 = credit := by
  induction queued generalizing credit with
  | nil => simp [drain]
  | cons x queued ih =>
      rcases drain_cons costs credit x queued with ⟨-, hcredit, h⟩ | ⟨left, hcredit, h⟩
      · rw [h, hcredit]
        rfl
      · have hleft := ih left
        rw [h, List.countP_cons]
        show (drain costs left queued).1.countP costs + (if costs x = true then 1 else 0) +
          (drain costs left queued).2.1 = credit
        omega

theorem drain_kept (credit : ℕ) (queued : List α) :
    ∀ x ∈ (drain costs credit queued).2.2.head?, costs x = true ∧ (drain costs credit queued).2.1 = 0 := by
  induction queued generalizing credit with
  | nil => simp [drain]
  | cons y queued ih =>
      rcases drain_cons costs credit y queued with ⟨hy, -, h⟩ | ⟨left, -, h⟩
      · rw [h]
        intro x hx
        obtain rfl : y = x := by simpa using hx
        exact ⟨hy, rfl⟩
      · rw [h]
        exact ih left

structure Channel (α : Type) where
  queued : List α
  credit : ℕ
  wire : List α
  received : List α
  owed : ℕ
  granted : ℕ

namespace Channel

def fresh (limit : ℕ) : Channel α := ⟨[], limit, [], [], 0, 0⟩

def text (ch : Channel α) : List α := ch.received ++ (ch.wire ++ ch.queued)

def sent (ch : Channel α) : List α := ch.received ++ ch.wire

def flush (ch : Channel α) : Channel α :=
  { ch with
    queued := (drain costs ch.credit ch.queued).2.2
    credit := (drain costs ch.credit ch.queued).2.1
    wire := ch.wire ++ (drain costs ch.credit ch.queued).1 }

def push (items : List α) (ch : Channel α) : Channel α := ({ ch with queued := ch.queued ++ items }).flush costs

/-- `n` credits come back. -/
def grant (n : ℕ) (ch : Channel α) : Channel α :=
  ({ ch with credit := ch.credit + n, owed := ch.owed - n, granted := ch.granted + n }).flush costs

/-- The first item on the wire, `x`, is read and `wire` is left of it. -/
def read (x : α) (wire : List α) (ch : Channel α) : Channel α :=
  { ch with wire := wire, received := ch.received ++ [x], owed := ch.owed + if costs x = true then 1 else 0 }

structure Ok (limit : ℕ) (ch : Channel α) : Prop where
  balance : ch.credit + ch.wire.countP costs + ch.owed = limit
  read_credit : ch.received.countP costs = ch.granted + ch.owed
  stalled : ∀ x ∈ ch.queued.head?, costs x = true ∧ ch.credit = 0

variable {costs} {limit : ℕ} {ch : Channel α}

theorem ok_fresh (limit : ℕ) : Ok costs limit (fresh limit : Channel α) :=
  ⟨by simp [fresh], by simp [fresh], by simp [fresh]⟩

theorem text_flush (ch : Channel α) : (ch.flush costs).text = ch.text := by
  have h := drain_append costs ch.credit ch.queued
  simp only [text, flush, List.append_assoc]
  rw [h]

theorem ok_flush (hbalance : ch.credit + ch.wire.countP costs + ch.owed = limit)
    (hread : ch.received.countP costs = ch.granted + ch.owed) : Ok costs limit (ch.flush costs) := by
  have hcredit := drain_credit costs ch.credit ch.queued
  refine ⟨?_, hread, drain_kept costs ch.credit ch.queued⟩
  show (drain costs ch.credit ch.queued).2.1 + (ch.wire ++ (drain costs ch.credit ch.queued).1).countP costs + ch.owed
    = limit
  rw [List.countP_append]
  omega

theorem text_push (items : List α) (ch : Channel α) : (ch.push costs items).text = ch.text ++ items := by
  rw [push, text_flush]
  simp [text]

theorem Ok.push (h : Ok costs limit ch) (items : List α) : Ok costs limit (ch.push costs items) :=
  ok_flush h.balance h.read_credit

theorem text_grant (n : ℕ) (ch : Channel α) : (ch.grant costs n).text = ch.text := by
  rw [grant, text_flush]
  rfl

theorem Ok.grant (h : Ok costs limit ch) {n : ℕ} (hn : n ≤ ch.owed) : Ok costs limit (ch.grant costs n) := by
  have hbalance := h.balance
  have hread := h.read_credit
  apply ok_flush
  · show ch.credit + n + ch.wire.countP costs + (ch.owed - n) = limit
    omega
  · show ch.received.countP costs = ch.granted + n + (ch.owed - n)
    omega

theorem text_read {x : α} {wire : List α} (hwire : ch.wire = x :: wire) : (ch.read costs x wire).text = ch.text := by
  simp [text, read, hwire]

theorem Ok.read (h : Ok costs limit ch) {x : α} {wire : List α} (hwire : ch.wire = x :: wire) :
    Ok costs limit (ch.read costs x wire) := by
  have hbalance := h.balance
  have hread := h.read_credit
  rw [hwire, List.countP_cons] at hbalance
  refine ⟨?_, ?_, h.stalled⟩
  · show ch.credit + wire.countP costs + (ch.owed + if costs x = true then 1 else 0) = limit
    omega
  · show (ch.received ++ [x]).countP costs = ch.granted + (ch.owed + if costs x = true then 1 else 0)
    rw [List.countP_append, List.countP_singleton]
    omega

theorem Ok.sent_le (h : Ok costs limit ch) : ch.sent.countP costs ≤ limit + ch.granted := by
  have hbalance := h.balance
  have hread := h.read_credit
  rw [sent, List.countP_append]
  omega

theorem Ok.credit_le (h : Ok costs limit ch) : ch.credit + ch.owed ≤ limit := by
  have hbalance := h.balance
  omega

theorem Ok.all_read (h : Ok costs limit ch) (hlimit : 0 < limit) (hwire : ch.wire = []) (howed : ch.owed = 0) :
    ch.received = ch.text := by
  have hbalance := h.balance
  rw [hwire, howed] at hbalance
  have hqueued : ch.queued = [] := by
    cases hq : ch.queued with
    | nil => rfl
    | cons x queued =>
        have hstalled := (h.stalled x (by simp [hq])).2
        simp [hstalled] at hbalance
        omega
  simp [text, hwire, hqueued]

theorem Ok.eq_fresh (h : Ok costs limit ch) (htext : ch.text = []) : ch = fresh limit := by
  obtain ⟨queued, credit, wire, received, owed, granted⟩ := ch
  have hbalance := h.balance
  have hread := h.read_credit
  simp only [text, List.append_eq_nil_iff] at htext
  obtain ⟨rfl, rfl, rfl⟩ := htext
  simp only [List.countP_nil] at hbalance hread
  obtain ⟨rfl, rfl⟩ : granted = 0 ∧ owed = 0 := by omega
  simp only [fresh, mk.injEq, true_and, and_true]
  omega

theorem grant_idle (hqueued : ch.queued = []) (n : ℕ) :
    ch.grant costs n = { ch with credit := ch.credit + n, owed := ch.owed - n, granted := ch.granted + n } := by
  simp [grant, flush, hqueued, drain_nil]

end Channel

end Credit
