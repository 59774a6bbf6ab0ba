import CitadelAgent.Lib.Chunks
import CitadelAgent.Lib.Credit

/-!
# Internal HTTP: frames and outboxes

`citadel-app-sdk-types/src/calls/ihttp.rs` and `citadel-app-sdk/src/ihttp/{mod,outbox,cancel_reason}.rs`: what the two
ends of a stream send each other, and the frames of one end that wait for credit.

* `FrameKind`, `HostOp`, `ClientEvent` : the frames, the calls of the host, what a caller's sink is given;
* `Outbox` : frames in order, of which the body frames spend one credit each;
* `next_eq` : one frame at a time, an outbox sends what `Credit.drain` sends.
-/

namespace CitadelAgent.Ihttp
open Credit

inductive HttpMethod
  | get
  | post
  | put
  | delete
  | patch
  | head
  deriving DecidableEq

abbrev Headers := List (String × String)

inductive Address
  | user (appId username : String)
  | scope (appId scopeKey : String)
  deriving DecidableEq

inductive Via
  | p2p
  | relay
  | group
  deriving DecidableEq

inductive Transport
  | p2p
  | relay
  | preferP2pThenRelay
  deriving DecidableEq

/-- The other end of a stream, as its session vouches for it. -/
structure Caller where
  username : String
  cid : Nat
  appId : String
  installId : String
  via : Via
  deriving DecidableEq

structure RequestHead where
  method : HttpMethod
  path : String
  query : String
  headers : Headers
  bodyLen : Option Nat
  appId : String
  scopeKey : String
  deriving DecidableEq

structure ResponseHead where
  status : UInt16
  headers : Headers
  bodyLen : Option Nat
  deriving DecidableEq

inductive FrameKind
  | requestHead (head : RequestHead)
  | responseHead (head : ResponseHead)
  | body (bytes : List UInt8)
  | end_
  | cancel (reason : String)
  | credit (n : Nat)
  deriving DecidableEq

structure IhttpFrame where
  v : UInt8
  stream : Nat
  kind : FrameKind

def IhttpFrame.new (stream : Nat) (kind : FrameKind) : IhttpFrame := ⟨1, stream, kind⟩

inductive Refused
  | ungranted
  | unavailable (what : String)
  | limit (what : String)
  | policy (what : String)
  | remote (status : UInt16)
  deriving DecidableEq

/-- The refusal a `Cancel` ends a call with. -/
def refusalOf (reason : String) : Refused :=
  if reason = "timeout" then .limit "time"
  else if reason = "too_large" then .limit "bytes"
  else if reason = "busy" then .limit "streams"
  else if reason = "rate_limited" then .limit "rate"
  else if reason = "protocol" then .policy "protocol"
  else .unavailable reason

structure Outbound where
  method : HttpMethod
  path : String
  query : String
  headers : Headers
  body : List UInt8
  deriving DecidableEq

structure Request where
  caller : Caller
  stream : Nat
  method : HttpMethod
  path : String
  query : String
  headers : Headers
  body : List UInt8

inductive ClientEvent
  | head (head : ResponseHead) (via : Via)
  | body (bytes : List UInt8)
  | end_
  | failed (refused : Refused)
  deriving DecidableEq

inductive HostOp
  | respond (peer : Caller) (frame : IhttpFrame)
  | call (to_ : Address) (frame : IhttpFrame) (transport : Transport)
  | consumed (peer : Caller) (stream : Nat)

/-- What `take_ready` finds of a call of the host. -/
inductive Answer
  | ready (result : Except Refused Unit)
  | later

def accepting (now : HostOp → Bool) (op : HostOp) : Answer := if now op = true then .ready (.ok ()) else .later

/-! ## The outbox -/

def IHTTP_INITIAL_CREDIT : Nat := 4

def IHTTP_MAX_CHUNK_BYTES : Nat := 65536

structure Outbox where
  credit : Nat
  queued : List FrameKind
  deriving DecidableEq

def FrameKind.paid : FrameKind → Bool
  | .body _ => true
  | _ => false

def FrameKind.last : FrameKind → Bool
  | .end_ => true
  | .cancel _ => true
  | _ => false

namespace Outbox

def new : Outbox := ⟨IHTTP_INITIAL_CREDIT, []⟩

/-- `u32::saturating_add`. -/
def grant (n : Nat) (outbox : Outbox) : Outbox := { outbox with credit := min (outbox.credit + n) (2 ^ 32 - 1) }

end Outbox

/-- A head, `body` in chunks, then `End`. -/
def message (head : FrameKind) (body : List UInt8) : List FrameKind :=
  head :: ((body.toChunks IHTTP_MAX_CHUNK_BYTES).map FrameKind.body ++ [.end_])

namespace Outbox

def message (head : FrameKind) (body : List UInt8) (outbox : Outbox) : Outbox :=
  { outbox with queued := outbox.queued ++ Ihttp.message head body }

def next (outbox : Outbox) : Option FrameKind × Outbox :=
  match outbox.queued with
  | [] => (none, outbox)
  | .body bytes :: queued =>
      if outbox.credit = 0 then (none, outbox) else (some (.body bytes), ⟨outbox.credit - 1, queued⟩)
  | kind :: queued => (some kind, { outbox with queued := queued })

/-- What is sent when `next` is asked until it answers nothing. -/
def drained (outbox : Outbox) : List FrameKind := (drain FrameKind.paid outbox.credit outbox.queued).1

def kept (outbox : Outbox) : Outbox :=
  ⟨(drain FrameKind.paid outbox.credit outbox.queued).2.1, (drain FrameKind.paid outbox.credit outbox.queued).2.2⟩

theorem next_eq (outbox : Outbox) :
    (outbox.next = (none, outbox) ∧ outbox.drained = [] ∧ outbox.kept = outbox) ∨
      ∃ kind rest, outbox.next = (some kind, rest) ∧ outbox.drained = kind :: rest.drained ∧ outbox.kept = rest.kept ∧
        outbox.queued = kind :: rest.queued := by
  obtain ⟨credit, queued⟩ := outbox
  cases queued with
  | nil => exact Or.inl ⟨rfl, rfl, rfl⟩
  | cons kind queued =>
      cases hkind : kind.paid with
      | false =>
          refine Or.inr ⟨kind, ⟨credit, queued⟩, ?_, ?_, ?_, rfl⟩
          · cases kind <;> simp_all [next, FrameKind.paid]
          · simp [drained, drain_free _ hkind]
          · simp [kept, drain_free _ hkind]
      | true =>
          obtain ⟨bytes, rfl⟩ : ∃ bytes, kind = .body bytes := by cases kind <;> simp_all [FrameKind.paid]
          cases credit with
          | zero =>
              refine Or.inl ⟨rfl, ?_, ?_⟩
              · simp [drained, drain_stuck _ hkind]
              · simp [kept, drain_stuck _ hkind]
          | succ credit =>
              refine Or.inr ⟨.body bytes, ⟨credit, queued⟩, rfl, ?_, ?_, rfl⟩
              · simp [drained, drain_paid _ hkind]
              · simp [kept, drain_paid _ hkind]

end Outbox

/-! ## Messages -/

def bodyOf (frames : List FrameKind) : List UInt8 :=
  frames.flatMap fun kind =>
    match kind with
    | .body bytes => bytes
    | _ => []

theorem bodyOf_append (frames frames' : List FrameKind) : bodyOf (frames ++ frames') = bodyOf frames ++ bodyOf frames' :=
  List.flatMap_append

theorem bodyOf_map (chunks : List (List UInt8)) : bodyOf (chunks.map FrameKind.body) = chunks.flatten := by
  simp [bodyOf, List.flatMap_map]

variable {body : List UInt8} {before : List FrameKind} {head : FrameKind}

theorem message_cases {after : List FrameKind} {kind : FrameKind} (h : before ++ kind :: after = message head body) :
    (before = [] ∧ kind = head) ∨
      (∃ (chunks : List (List UInt8)) (bytes : List UInt8), before = head :: chunks.map FrameKind.body ∧ kind = .body bytes) ∨
      (before = head :: (body.toChunks IHTTP_MAX_CHUNK_BYTES).map FrameKind.body ∧ kind = .end_ ∧ after = []) := by
  cases before with
  | nil => exact Or.inl ⟨rfl, (List.cons.inj h).1⟩
  | cons first before =>
      obtain ⟨rfl, htail⟩ := List.cons.inj h
      refine Or.inr ?_
      rcases List.append_eq_append_iff.mp htail with ⟨more, hmore, hend⟩ | ⟨more, hmore, hend⟩
      · cases more with
        | nil =>
            simp only [List.append_nil] at hmore
            simp only [List.nil_append, List.cons.injEq] at hend
            exact Or.inr ⟨by rw [hmore], hend.1, hend.2⟩
        | cons kind' more =>
            obtain ⟨rfl, -⟩ := List.cons.inj hend
            obtain ⟨chunks, rest, -, hbefore, hrest⟩ := List.map_eq_append_iff.mp hmore
            obtain ⟨bytes, -, -, hkind, -⟩ := List.map_eq_cons_iff.mp hrest
            exact Or.inl ⟨chunks, bytes, by rw [hbefore], hkind.symm⟩
      · -- what is left of `End` after the chunks starts with the frame
        cases more with
        | nil =>
            simp only [List.append_nil] at hmore
            simp only [List.nil_append, List.cons.injEq] at hend
            exact Or.inr ⟨by rw [hmore], hend.1.symm, hend.2.symm⟩
        | cons kind' more => simp at hend

theorem message_last {queued : List FrameKind} (h : before ++ queued = message head body) (hhead : head.last = false) :
    ∀ kind ∈ queued.dropLast, kind.last = false := by
  intro kind hkind
  have hqueued : queued ≠ [] := by
    rintro rfl
    simp at hkind
  have hmem : kind ∈ (message head body).dropLast := by
    rw [← h, List.dropLast_append_of_ne_nil hqueued]
    exact List.mem_append_right _ hkind
  rw [message, ← List.cons_append, List.dropLast_concat, List.mem_cons, List.mem_map] at hmem
  rcases hmem with rfl | ⟨bytes, -, rfl⟩
  · exact hhead
  · rfl

theorem message_ends {queued : List FrameKind} (h : before ++ queued = message head body) (hqueued : queued ≠ []) : .end_ ∈ queued := by
  have hend : (before ++ queued).getLast? = some .end_ := by
    rw [h, message, ← List.cons_append, List.getLast?_concat]
  rw [List.getLast?_append_of_ne_nil _ hqueued] at hend
  exact List.mem_of_getLast? hend

theorem Outbox.drained_append (outbox : Outbox) : outbox.drained ++ outbox.kept.queued = outbox.queued :=
  drain_append FrameKind.paid outbox.credit outbox.queued

theorem Outbox.drained_last {outbox : Outbox} (h : before ++ outbox.queued = Ihttp.message head body) (hhead : head.last = false)
    (hqueued : outbox.queued ≠ []) :
    outbox.drained.any FrameKind.last = true ↔ outbox.kept.queued = [] := by
  have happend := outbox.drained_append
  constructor
  · intro hany
    obtain ⟨kind, hkind, hlast⟩ := List.any_eq_true.mp hany
    by_contra hkept
    have hmem : kind ∈ outbox.queued.dropLast := by
      rw [← happend, List.dropLast_append_of_ne_nil hkept]
      exact List.mem_append_left _ hkind
    simp [message_last h hhead kind hmem] at hlast
  · intro hkept
    rw [hkept, List.append_nil] at happend
    exact List.any_eq_true.mpr ⟨.end_, happend ▸ message_ends h hqueued, rfl⟩

end CitadelAgent.Ihttp
