import CitadelAgent.Apps.Fetch
import CitadelAgent.Apps.Kv
import CitadelAgent.Ihttp.Codec
import CitadelAgent.Lib.Chunks
import CitadelAgent.Lib.Machine

/-!
# A streamed fetch

`citadel-internal-service/src/kernel/apps/net/{stream,body}.rs`: `apply`, and the loop of `pump`, which sends an upstream
body in chunks against the credit the page grants; `stream` and `shown_headers` around it. The world meets the loop where
it looks or waits: a control is there or not, the sender of controls is gone, the deadline passes, the upstream answers,
the connection takes an event or not. A body is what its `next_chunk` gives, call by call. The ids every event carries
are the opener's, and the meter only counts: both are left out.

* `Point`, `Streaming`, `step` : where the loop stands, what it holds, and one thing that happens to it;
* `Going`, `Sent`, `Inv` : what holds while it goes on, what holds of what was sent, and of every point;
* `stream_ended` : a page that is told the end was sent the whole body;
* `stream_honours_credit` : what a page sees of a body, whatever happens and in whatever order.
-/

namespace CitadelAgent.Apps.Stream

open Ihttp.Wire (MAX_BODY_CHUNK_BYTES MAX_CREDIT_GRANT)
open NetPolicy (Text MAX_HEADERS MAX_HEADER_BYTES MAX_RESPONSE_BODY_BYTES)

/-- Chunks a sender may send before the first `Credit`. -/
def INITIAL_CREDIT : UInt32 := 4

inductive Control
  | credit (n : UInt32)
  | cancel

/-- `u32::saturating_add` -/
def saturatingAdd (a b : UInt32) : UInt32 := if a.toNat + b.toNat < 2 ^ 32 then a + b else 2 ^ 32 - 1

/-- `u32::checked_sub`: where it gives nothing, `-` panics. -/
def checkedSub (a b : UInt32) : Option UInt32 := if b ≤ a then some (a - b) else none

/-- Credit after `control`: a grant of 1 to `MAX_CREDIT_GRANT` adds to it, anything else ends the stream. -/
def apply (credit : UInt32) (control : Control) : Except AppFetchRefusal UInt32 :=
  match control with
  | .credit n =>
    if 1 ≤ n.toNat ∧ n.toNat ≤ MAX_CREDIT_GRANT then .ok (saturatingAdd credit n) else .error (.limit .credit)
  | .cancel => .error (.unavailable .cancelled)

def Control.granted : Control → Nat
  | .credit n => if 1 ≤ n.toNat ∧ n.toNat ≤ MAX_CREDIT_GRANT then n.toNat else 0
  | .cancel => 0

/-- What one call of `next_chunk` gives. -/
inductive NextChunk
  | chunk (bytes : Bytes)
  | ended
  | failed (why : Text)

abbrev UpstreamBody := Nat → NextChunk

/-- `AppFetchStreamChunk` -/
structure Chunk where
  seq : UInt32
  bytes : Bytes

/-- Where `pump` stands. -/
inductive Point
  | draining
  | waiting
  | reading
  | sending
  | returned (result : Except AppFetchRefusal Nat)
  /-- `credit -= 1` went below zero. -/
  | panicked

/-- The variables of `pump`; and the chunks it has emitted, the credit it was granted and the calls of `next_chunk`. -/
structure Streaming where
  credit : UInt32
  pieces : List Bytes
  total : Nat
  seq : UInt32
  point : Point
  chunks : List Chunk
  granted : Nat
  asked : Nat

def Streaming.start : Streaming := ⟨INITIAL_CREDIT, [], 0, 0, .draining, [], 0, 0⟩

inductive Act
  | told (control : Control)
  | quiet
  | closed
  | deadline
  | answered
  | emitted (taken : Bool)

namespace Streaming

def fail (s : Streaming) (refusal : AppFetchRefusal) : Streaming := { s with point := .returned (.error refusal) }

def hear (s : Streaming) (control : Control) : Streaming :=
  match apply s.credit control with
  | .ok credit => { s with credit, point := .draining, granted := s.granted + control.granted }
  | .error refusal => s.fail refusal

/-- Past the `try_recv` loop: out of credit, out of pieces, or at a piece. -/
def look (s : Streaming) : Streaming :=
  if s.credit = 0 then { s with point := .waiting }
  else if s.pieces.isEmpty then { s with point := .reading }
  else { s with point := .sending }

def read (body : UpstreamBody) (s : Streaming) : Streaming :=
  match body s.asked with
  | .failed _ => s.fail (.unavailable .network)
  | .ended => { s with point := .returned (.ok s.total) }
  | .chunk bytes =>
    let total := s.total + bytes.length
    if MAX_RESPONSE_BODY_BYTES < total then s.fail (.limit .responseBody)
    else
      { s with
        total, pieces := s.pieces ++ bytes.toChunks MAX_BODY_CHUNK_BYTES, asked := s.asked + 1, point := .draining }

def send (s : Streaming) (taken : Bool) : Streaming :=
  match s.pieces with
  | [] => { s with point := .draining }
  | bytes :: pieces =>
    let s : Streaming := { s with pieces, chunks := s.chunks ++ [⟨s.seq, bytes⟩] }
    if !taken then s.fail (.unavailable .cancelled)
    else
      match checkedSub s.credit 1 with
      | none => { s with point := .panicked }
      | some credit => { s with credit, seq := saturatingAdd s.seq 1, point := .draining }

end Streaming

open Streaming in
def step (body : UpstreamBody) (s : Streaming) (act : Act) : Streaming :=
  match s.point, act with
  | .draining, .told control => s.hear control
  | .draining, .quiet => s.look
  | .waiting, .told control => s.hear control
  | .waiting, .closed => s.fail (.unavailable .cancelled)
  | .waiting, .deadline => s.fail (.limit .time)
  | .reading, .deadline => s.fail (.limit .time)
  | .reading, .answered => s.read body
  | .sending, .emitted taken => s.send taken
  | _, _ => s

def run (body : UpstreamBody) (acts : List Act) : Streaming := acts.foldl (step body) Streaming.start

/-! ## Around the loop -/

def DENIED_RESPONSE_HEADERS : List Text := [
  "set-cookie".toList, "set-cookie2".toList, "www-authenticate".toList, "proxy-authenticate".toList,
  "content-length".toList, "transfer-encoding".toList, "connection".toList, "keep-alive".toList, "upgrade".toList,
  "te".toList, "trailer".toList, "proxy-connection".toList]

def responseHeaderOk (name : Text) : Bool := !DENIED_RESPONSE_HEADERS.any fun denied => eqIgnoreAsciiCase denied name

def shownHeaders (headers : List (Text × Text)) : List (Text × Text) :=
  (headers.filter fun (name, value) => responseHeaderOk name && decide (name.len + value.len ≤ MAX_HEADER_BYTES)).take
    MAX_HEADERS

inductive StreamEvent
  | head (status : UInt16) (headers : List (Text × Text)) (redirects : UInt8)
  | chunk (chunk : Chunk)
  | ended (bodyBytes : Nat)
  | failure (refusal : AppFetchRefusal)

/-- The last event, once `pump` has returned. -/
def Point.lastEvent : Point → List StreamEvent
  | .returned (.ok bodyBytes) => [.ended bodyBytes]
  | .returned (.error refusal) => [.failure refusal]
  | _ => []

/-- The head, then the body against credit, then `End` or the failure; only the head, if nobody takes it. -/
def stream (opened : Opened) (headTaken : Bool) (body : UpstreamBody) (acts : List Act) : List StreamEvent :=
  let head := .head opened.head.status (shownHeaders opened.head.headers) opened.redirects
  if !headTaken then [head]
  else head :: ((run body acts).chunks.map StreamEvent.chunk ++ (run body acts).point.lastEvent)

/-! ## What holds of a body -/

variable {m n : Nat} {body : UpstreamBody} {s : Streaming} {refusal : AppFetchRefusal} {credit : UInt32}

namespace UpstreamBody

/-- What its first calls deliver. -/
def text (body : UpstreamBody) : Nat → Bytes
  | 0 => []
  | n + 1 =>
    match body n with
    | .chunk bytes => body.text n ++ bytes
    | _ => body.text n

def Flows (body : UpstreamBody) (n : Nat) : Prop := ∀ k < n, ∃ bytes, body k = .chunk bytes

/-- The whole of a body that ends, after `n` chunks. -/
structure Whole (body : UpstreamBody) (n : Nat) (bytes : Bytes) : Prop where
  flows : body.Flows n
  ended : body n = .ended
  text_eq : bytes = body.text n

variable {body : UpstreamBody} {n : Nat} {bytes : Bytes}

theorem text_chunk (h : body n = .chunk bytes) : body.text (n + 1) = body.text n ++ bytes := by
  rw [text, h]

theorem Flows.succ (h : body.Flows n) (hchunk : body n = .chunk bytes) : body.Flows (n + 1) := by
  intro k hk
  rcases Nat.lt_succ_iff_lt_or_eq.mp hk with hlt | rfl
  · exact h k hlt
  · exact ⟨bytes, hchunk⟩

theorem text_prefix (body : UpstreamBody) (h : m ≤ n) : body.text m <+: body.text n := by
  induction n, h using Nat.le_induction with
  | base => exact List.prefix_refl _
  | succ n _ ih =>
    rw [text]
    split
    · exact ih.trans (List.prefix_append _ _)
    · exact ih

theorem Whole.le (h : body.Whole n bytes) (hflows : body.Flows m) : m ≤ n := by
  by_contra hlt
  obtain ⟨chunk, hchunk⟩ := hflows n (not_le.mp hlt)
  rw [h.ended] at hchunk
  cases hchunk

theorem Whole.eq (h : body.Whole n bytes) (hflows : body.Flows m) (hstop : ∀ chunk, body m ≠ .chunk chunk) :
    m = n := by
  refine le_antisymm (h.le hflows) ?_
  by_contra hlt
  obtain ⟨chunk, hchunk⟩ := h.flows m (not_le.mp hlt)
  exact hstop chunk hchunk

end UpstreamBody

/-! ## What holds of a stream -/

def textOf (chunks : List Chunk) : Bytes := chunks.flatMap Chunk.bytes

theorem textOf_append (chunks : List Chunk) (chunk : Chunk) :
    textOf (chunks ++ [chunk]) = textOf chunks ++ chunk.bytes := by
  simp [textOf]

/-- The chunks in order, each with something in it. -/
structure Numbered (chunks : List Chunk) : Prop where
  seqs : chunks.map (fun chunk => chunk.seq.toNat) = List.range chunks.length
  fits : ∀ chunk ∈ chunks, Chunks.Fits MAX_BODY_CHUNK_BYTES chunk.bytes

theorem Numbered.length_le {chunks : List Chunk} (h : Numbered chunks) : chunks.length ≤ (textOf chunks).length := by
  have hfits := h.fits
  clear h
  induction chunks with
  | nil => exact le_refl _
  | cons chunk chunks ih =>
    have hpos := List.length_pos_iff.mpr (hfits chunk List.mem_cons_self).1
    have := ih fun c hc => hfits c (List.mem_cons_of_mem _ hc)
    rw [textOf] at this ⊢
    rw [List.flatMap_cons, List.length_append, List.length_cons]
    omega

theorem Numbered.append {chunks : List Chunk} (h : Numbered chunks) {chunk : Chunk} (hseq : chunk.seq.toNat = chunks.length)
    (hfits : Chunks.Fits MAX_BODY_CHUNK_BYTES chunk.bytes) : Numbered (chunks ++ [chunk]) := by
  constructor
  · rw [List.map_append, h.seqs, List.length_append, List.length_singleton, List.range_succ, List.map_singleton, hseq]
  · intro c hc
    rcases List.mem_append.mp hc with hold | hnew
    · exact h.fits c hold
    · exact List.mem_singleton.mp hnew ▸ hfits

/-- While the loop goes on: what was sent and what is left to send are what was read, and the credit is what was granted
and not spent. -/
structure Going (body : UpstreamBody) (s : Streaming) : Prop where
  numbered : Numbered s.chunks
  flows : body.Flows s.asked
  text_eq : textOf s.chunks ++ s.pieces.flatten = body.text s.asked
  total_eq : s.total = (body.text s.asked).length
  total_le : s.total ≤ MAX_RESPONSE_BODY_BYTES
  pieces : ∀ piece ∈ s.pieces, Chunks.Fits MAX_BODY_CHUNK_BYTES piece
  seq_eq : s.seq.toNat = s.chunks.length
  credit_le : s.credit.toNat + s.chunks.length ≤ INITIAL_CREDIT.toNat + s.granted

structure Sent (body : UpstreamBody) (s : Streaming) : Prop where
  numbered : Numbered s.chunks
  flows : body.Flows s.asked
  text_prefix : textOf s.chunks <+: body.text s.asked
  total_le : (textOf s.chunks).length ≤ MAX_RESPONSE_BODY_BYTES
  length_le : s.chunks.length ≤ INITIAL_CREDIT.toNat + s.granted

inductive Fails (body : UpstreamBody) (s : Streaming) : AppFetchRefusal → Prop
  | cancelled : Fails body s (.unavailable .cancelled)
  | time : Fails body s (.limit .time)
  | credit : Fails body s (.limit .credit)
  | network {why : Text} (h : body s.asked = .failed why) : Fails body s (.unavailable .network)
  | responseBody {bytes : Bytes} (h : body s.asked = .chunk bytes)
      (hlong : MAX_RESPONSE_BODY_BYTES < (body.text (s.asked + 1)).length) : Fails body s (.limit .responseBody)

def Inv (body : UpstreamBody) (s : Streaming) : Prop :=
  match s.point with
  | .draining | .waiting => Going body s
  | .reading => Going body s ∧ s.credit ≠ 0 ∧ s.pieces = []
  | .sending => Going body s ∧ s.credit ≠ 0 ∧ s.pieces ≠ []
  | .returned (.ok n) => Going body s ∧ s.pieces = [] ∧ body s.asked = .ended ∧ n = s.total
  | .returned (.error refusal) => Sent body s ∧ Fails body s refusal
  | .panicked => False

theorem Going.text_length (h : Going body s) :
    (textOf s.chunks).length + s.pieces.flatten.length = s.total := by
  rw [h.total_eq, ← h.text_eq, List.length_append]

theorem Going.text_all (h : Going body s) (hpieces : s.pieces = []) :
    textOf s.chunks = body.text s.asked := by
  rw [← h.text_eq, hpieces, List.flatten_nil, List.append_nil]

theorem Going.sent (h : Going body s) : Sent body s where
  numbered := h.numbered
  flows := h.flows
  text_prefix := ⟨s.pieces.flatten, h.text_eq⟩
  total_le := by
    have := h.text_length
    have := h.total_le
    omega
  length_le := le_trans (Nat.le_add_left _ _) h.credit_le

theorem Sent.fail (h : Sent body s) (hfails : Fails body s refusal) : Inv body (s.fail refusal) := by
  refine ⟨⟨h.numbered, h.flows, h.text_prefix, h.total_le, h.length_le⟩, ?_⟩
  cases hfails with
  | cancelled => exact Fails.cancelled
  | time => exact Fails.time
  | credit => exact Fails.credit
  | network h => exact Fails.network h
  | responseBody h hlong => exact Fails.responseBody h hlong

/-! ## Every step keeps it -/

theorem toNat_saturatingAdd_le (a b : UInt32) : (saturatingAdd a b).toNat ≤ a.toNat + b.toNat := by
  rw [saturatingAdd]
  split
  case isTrue => exact UInt32.toNat_add a b ▸ Nat.mod_le _ _
  case isFalse hfull =>
    have hmax : (2 ^ 32 - 1 : UInt32).toNat = 2 ^ 32 - 1 := by decide
    omega

theorem toNat_saturatingAdd {a b : UInt32} (h : a.toNat + b.toNat < 2 ^ 32) :
    (saturatingAdd a b).toNat = a.toNat + b.toNat := by
  rw [saturatingAdd, if_pos h, UInt32.toNat_add, Nat.mod_eq_of_lt h]

theorem apply_eq_ok {left : UInt32} {control : Control} (h : apply credit control = .ok left) :
    left.toNat ≤ credit.toNat + control.granted := by
  cases control with
  | cancel => cases h
  | credit n =>
    simp only [apply] at h
    split at h
    case isTrue hvalid =>
      rw [← Except.ok.inj h, Control.granted, if_pos hvalid]
      exact toNat_saturatingAdd_le credit n
    case isFalse => cases h

theorem apply_eq_error {control : Control}
    (h : apply credit control = .error refusal) (body : UpstreamBody) (s : Streaming) : Fails body s refusal := by
  cases control with
  | cancel => exact Except.error.inj h ▸ Fails.cancelled
  | credit n =>
    simp only [apply] at h
    split at h
    case isTrue => cases h
    case isFalse => exact Except.error.inj h ▸ Fails.credit

theorem checkedSub_one (h : credit ≠ 0) :
    ∃ left, checkedSub credit 1 = some left ∧ left.toNat + 1 = credit.toNat := by
  have hpos : 0 < credit.toNat := Nat.pos_of_ne_zero fun hzero => h (UInt32.toNat_inj.mp hzero)
  have hle : (1 : UInt32) ≤ credit := UInt32.le_iff_toNat_le.mpr hpos
  refine ⟨credit - 1, if_pos hle, ?_⟩
  rw [UInt32.toNat_sub_of_le _ _ hle]
  exact Nat.sub_add_cancel hpos

namespace Going

variable {body : UpstreamBody} {s : Streaming}

theorem hear (h : Going body s) (control : Control) : Inv body (s.hear control) := by
  rw [Streaming.hear]
  split
  case h_1 credit happly =>
    have hle := apply_eq_ok happly
    have := h.credit_le
    refine { h with credit_le := ?_ }
    show credit.toNat + s.chunks.length ≤ INITIAL_CREDIT.toNat + (s.granted + control.granted)
    omega
  case h_2 refusal happly => exact h.sent.fail (apply_eq_error happly body s)

theorem look (h : Going body s) : Inv body s.look := by
  rw [Streaming.look]
  split
  case isTrue => exact { h with }
  case isFalse hcredit =>
    split
    case isTrue hpieces => exact ⟨{ h with }, hcredit, List.isEmpty_iff.mp hpieces⟩
    case isFalse hpieces => exact ⟨{ h with }, hcredit, fun hnil => hpieces (List.isEmpty_iff.mpr hnil)⟩

theorem read (h : Going body s) (hpieces : s.pieces = []) : Inv body (s.read body) := by
  rw [Streaming.read]
  split
  case h_1 why hfailed => exact h.sent.fail (Fails.network hfailed)
  case h_2 hended => exact ⟨{ h with }, hpieces, hended, rfl⟩
  case h_3 bytes hchunk =>
    have htext := UpstreamBody.text_chunk hchunk
    have hlength : s.total + bytes.length = (body.text (s.asked + 1)).length := by
      rw [htext, List.length_append, h.total_eq]
    dsimp only
    split
    case isTrue hlong => exact h.sent.fail (Fails.responseBody hchunk (hlength ▸ hlong))
    case isFalse hshort =>
      refine { h with
        flows := h.flows.succ hchunk
        text_eq := ?_
        total_eq := hlength
        total_le := not_lt.mp hshort
        pieces := ?_ }
      · show textOf s.chunks ++ (s.pieces ++ bytes.toChunks MAX_BODY_CHUNK_BYTES).flatten = body.text (s.asked + 1)
        rw [List.flatten_append, Chunks.flatten_toChunks, ← List.append_assoc, h.text_eq, htext]
      · intro piece hpiece
        rcases List.mem_append.mp hpiece with hold | hnew
        · exact h.pieces piece hold
        · exact Chunks.of_mem_toChunks (by decide) hnew

theorem length_lt (h : Going body s) : s.chunks.length + 1 < 2 ^ 32 := by
  have := h.numbered.length_le
  have := h.sent.total_le
  have hmax : MAX_RESPONSE_BODY_BYTES = 16777216 := rfl
  omega

theorem send (h : Going body s) (hcredit : s.credit ≠ 0) (taken : Bool) : Inv body (s.send taken) := by
  rw [Streaming.send]
  split
  case h_1 hnil => exact { h with }
  case h_2 bytes pieces hpieces =>
    have hfits := h.pieces bytes (hpieces ▸ List.mem_cons_self)
    have hnumbered : Numbered (s.chunks ++ [⟨s.seq, bytes⟩]) := h.numbered.append h.seq_eq hfits
    have hlength : (s.chunks ++ [(⟨s.seq, bytes⟩ : Chunk)]).length = s.chunks.length + 1 := List.length_append
    have htext : textOf (s.chunks ++ [⟨s.seq, bytes⟩]) ++ pieces.flatten = body.text s.asked := by
      rw [← h.text_eq, textOf_append, hpieces, List.flatten_cons, List.append_assoc]
    obtain ⟨left, hleft, hone⟩ := checkedSub_one hcredit
    have hle := h.credit_le
    have hsent : Going body { s with
        pieces, chunks := s.chunks ++ [⟨s.seq, bytes⟩], credit := left, seq := saturatingAdd s.seq 1, point := .draining } := by
      refine { h with numbered := hnumbered, text_eq := htext, pieces := ?_, seq_eq := ?_, credit_le := ?_ }
      · exact fun piece hpiece => h.pieces piece (hpieces ▸ List.mem_cons_of_mem bytes hpiece)
      · have := h.length_lt
        have hseq := h.seq_eq
        have hsucc : s.seq.toNat + (1 : UInt32).toNat < 2 ^ 32 := by
          show s.seq.toNat + 1 < 2 ^ 32
          omega
        show (saturatingAdd s.seq 1).toNat = _
        rw [toNat_saturatingAdd hsucc, hlength, hseq]
        rfl
      · show left.toNat + (s.chunks ++ [(⟨s.seq, bytes⟩ : Chunk)]).length ≤ INITIAL_CREDIT.toNat + s.granted
        omega
    split
    case isTrue =>
      exact Sent.fail ⟨hnumbered, h.flows, ⟨_, htext⟩, hsent.sent.total_le, hsent.sent.length_le⟩ Fails.cancelled
    case isFalse =>
      show Inv body (match checkedSub s.credit 1 with | none => _ | some credit => _)
      rw [hleft]
      exact hsent

end Going

theorem Inv.step (h : Inv body s) (act : Act) : Inv body (step body s act) := by
  unfold Inv at h
  unfold Stream.step
  split
  case h_1 hpoint => exact Going.hear (by rwa [hpoint] at h) _
  case h_2 hpoint => exact Going.look (by rwa [hpoint] at h)
  case h_3 hpoint => exact Going.hear (by rwa [hpoint] at h) _
  case h_4 hpoint =>
    rw [hpoint] at h
    exact (Going.sent h).fail Fails.cancelled
  case h_5 hpoint =>
    rw [hpoint] at h
    exact (Going.sent h).fail Fails.time
  case h_6 hpoint =>
    rw [hpoint] at h
    exact h.1.sent.fail Fails.time
  case h_7 hpoint =>
    rw [hpoint] at h
    exact h.1.read h.2.2
  case h_8 hpoint =>
    rw [hpoint] at h
    exact h.1.send h.2.1 _
  case h_9 => exact h

theorem inv_start (body : UpstreamBody) : Inv body Streaming.start where
  numbered := ⟨rfl, fun _ hc => absurd hc List.not_mem_nil⟩
  flows := fun _ hk => absurd hk (Nat.not_lt_zero _)
  text_eq := rfl
  total_eq := rfl
  total_le := Nat.zero_le _
  pieces := fun _ hp => absurd hp List.not_mem_nil
  seq_eq := rfl
  credit_le := le_refl _

theorem inv_run (body : UpstreamBody) (acts : List Act) : Inv body (run body acts) :=
  (Machine.reaches_foldl (Machine.allMeet_of_forall (fun _ _ => trivial) _ acts)).invariant
    (fun _ hs => hs ▸ inv_start body) fun _ act h _ => h.step act

/-! ## What a page sees -/

namespace Inv

variable {body : UpstreamBody} {s : Streaming}

theorem sent (h : Inv body s) : Sent body s := by
  unfold Inv at h
  split at h
  case h_1 => exact Going.sent h
  case h_2 => exact Going.sent h
  case h_3 => exact h.1.sent
  case h_4 => exact h.1.sent
  case h_5 => exact h.1.sent
  case h_6 => exact h.1
  case h_7 => exact h.elim

theorem point_ne_panicked (h : Inv body s) : s.point ≠ .panicked := by
  intro hpoint
  rw [Inv, hpoint] at h
  exact h

theorem of_ok (h : Inv body s) (hpoint : s.point = .returned (.ok n)) :
    body.Whole s.asked (textOf s.chunks) ∧ n = (textOf s.chunks).length := by
  rw [Inv, hpoint] at h
  obtain ⟨hgoing, hpieces, hended, rfl⟩ := h
  have htext := hgoing.text_all hpieces
  exact ⟨⟨hgoing.flows, hended, htext⟩, by rw [htext, hgoing.total_eq]⟩

theorem ends (h : Inv body s) (hpoint : s.point = .reading) (hended : body s.asked = .ended) :
    (Stream.step body s .answered).point = .returned (.ok (textOf s.chunks).length) := by
  rw [Inv, hpoint] at h
  obtain ⟨hgoing, -, hpieces⟩ := h
  simp only [Stream.step, hpoint, Streaming.read, hended]
  rw [hgoing.text_all hpieces, hgoing.total_eq]

theorem of_error (h : Inv body s) (hpoint : s.point = .returned (.error refusal)) (hwhole : body.Whole n (textOf s.chunks)) :
    refusal = .limit .time ∨ refusal = .limit .credit ∨ refusal = .unavailable .cancelled := by
  rw [Inv, hpoint] at h
  obtain ⟨hsent, hfails⟩ := h
  cases hfails with
  | cancelled => exact Or.inr (Or.inr rfl)
  | time => exact Or.inl rfl
  | credit => exact Or.inr (Or.inl rfl)
  | network hfailed =>
    obtain rfl := hwhole.eq hsent.flows fun chunk hchunk => by rw [hfailed] at hchunk; cases hchunk
    rw [hwhole.ended] at hfailed
    cases hfailed
  | responseBody hchunk hlong =>
    have hle := (body.text_prefix (hwhole.le (hsent.flows.succ hchunk))).length_le
    have := hsent.total_le
    rw [hwhole.text_eq] at this
    omega

end Inv

theorem stream_ended {opened : Opened} {headTaken : Bool} {acts : List Act} (h : .ended n ∈ stream opened headTaken body acts) :
    ∃ head chunks k, stream opened headTaken body acts = head :: (chunks.map StreamEvent.chunk ++ [.ended n]) ∧
      body.Whole k (textOf chunks) ∧ n = (textOf chunks).length := by
  rw [stream] at h ⊢
  split at h
  case isTrue => simp at h
  case isFalse htaken =>
    have hpoint : (run body acts).point = .returned (.ok n) := by
      have hlast : .ended n ∈ (run body acts).point.lastEvent := by simpa using h
      unfold Point.lastEvent at hlast
      split at hlast
      case h_1 hpoint => rw [hpoint, StreamEvent.ended.inj (List.mem_singleton.mp hlast)]
      case h_2 => simp at hlast
      case h_3 => simp at hlast
    obtain ⟨hwhole, hlength⟩ := (inv_run body acts).of_ok hpoint
    rw [if_neg htaken, hpoint]
    exact ⟨_, (run body acts).chunks, _, rfl, hwhole, hlength⟩

theorem stream_honours_credit (body : UpstreamBody) (acts : List Act) :
    let s := run body acts
    textOf s.chunks <+: body.text s.asked ∧
      s.chunks.map (fun chunk => chunk.seq.toNat) = List.range s.chunks.length ∧
      (∀ chunk ∈ s.chunks, 1 ≤ chunk.bytes.length ∧ chunk.bytes.length ≤ MAX_BODY_CHUNK_BYTES) ∧
      s.chunks.length ≤ INITIAL_CREDIT.toNat + s.granted ∧
      (textOf s.chunks).length ≤ MAX_RESPONSE_BODY_BYTES ∧
      (∀ n, s.point = .returned (.ok n) → body.Whole s.asked (textOf s.chunks) ∧ n = (textOf s.chunks).length) ∧
      (s.point = .reading → body s.asked = .ended →
        (step body s .answered).point = .returned (.ok (textOf s.chunks).length)) ∧
      (∀ refusal, s.point = .returned (.error refusal) → (∃ n, body.Whole n (textOf s.chunks)) →
        refusal = .limit .time ∨ refusal = .limit .credit ∨ refusal = .unavailable .cancelled) ∧
      s.point ≠ .panicked := by
  intro s
  have hinv : Inv body s := inv_run body acts
  have hsent := hinv.sent
  refine ⟨hsent.text_prefix, hsent.numbered.seqs, ?_, hsent.length_le, hsent.total_le, ?_, ?_, ?_, ?_⟩
  · intro chunk hchunk
    obtain ⟨hne, hle⟩ := hsent.numbered.fits chunk hchunk
    exact ⟨List.length_pos_iff.mpr hne, hle⟩
  · exact fun n hpoint => hinv.of_ok hpoint
  · exact fun hpoint hended => hinv.ends hpoint hended
  · exact fun refusal hpoint ⟨n, hwhole⟩ => hinv.of_error hpoint hwhole
  · exact hinv.point_ne_panicked

/-- The page cancels after the last chunk, before the end is read. -/
theorem whole_body_cancelled :
    let body : UpstreamBody := fun n => if n = 0 then .chunk [7] else .ended
    let s := run body [.quiet, .answered, .quiet, .emitted true, .told .cancel]
    body.Whole 1 (textOf s.chunks) ∧ s.point = .returned (.error (.unavailable .cancelled)) := by
  refine ⟨⟨fun k hk => ⟨[7], if_pos (Nat.lt_one_iff.mp hk)⟩, rfl, ?_⟩, ?_⟩
  · decide +kernel
  · rfl

end CitadelAgent.Apps.Stream
