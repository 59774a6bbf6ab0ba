import CitadelAgent.Ihttp.Codec
import CitadelAgent.Messenger.Encode
import CitadelAgent.Requests.Gate

/-!
# Internal HTTP in a window's messages

A window's `Message` goes on the peer's link as it is, and its `SendReliable` in a data frame of the account's ILM; the peer's agent
reads what its own ILM delivers of either (`kernel/apps_io.rs`, `deliver_ihttp`).

* `OnLink` : the bytes that a request puts on a link;
* `Receives` : what the peer's agent finds in the bytes that arrive;
* `CarriesFrame` : the bytes are themselves a frame of the messenger's around an envelope;
* `only_ihttpSend_carries_frames` : when the peer finds no internal HTTP in them.
-/

namespace CitadelAgent.Requests
open Conversations (Cid)
open Messenger (Outside OutsideWriting Inverse Ranged FrameExtensions MessageNotification Slot decodeNotification dataRequest feed)
open Ihttp.Wire (Ciborium Inbound read)

inductive OnLink (writing : OutsideWriting) : Request → Bytes → Prop
  | message {cid : Cid} {message : Bytes} : OnLink writing (.message cid message) message
  | sendReliable {cid : Cid} {message bytes : Bytes} {source destination messageId : Nat} {extensions : FrameExtensions}
      (ranged : Ranged source destination messageId message extensions)
      (sent : dataRequest writing source destination messageId message extensions = .ok bytes) :
      OnLink writing (.sendReliable cid message) bytes

/-- The agent's ILM is handed the frame that the bytes are, delivers its message, and the agent finds this in it. -/
structure Receives (out : Outside) (ciborium : Ciborium) (hosts : Nat → Option Slot) (arrived : MessageNotification)
    (frame : Messenger.InboundFrame) (inbound : Inbound) : Prop where
  fed : feed out hosts arrived = .handed frame
  delivered : ∃ m to_ n, frame.payload = .message m ∧ Messenger.AgentDelivery.deliver arrived.cid m = some (to_, n) ∧
    read ciborium n.message = inbound

def unwrapped (out : Outside) (bytes : Bytes) : Option Bytes :=
  match decodeNotification out bytes with
  | .ok (.data _ _ _ contents _) => some contents
  | .ok (.control (.message m) _) =>
    match m.contents with
    | .notification n => some n.message
    | .other _ => none
  | _ => none

/-- The bytes are a frame of the messenger's around an envelope that holds a valid internal-HTTP frame. -/
def CarriesFrame (out : Outside) (ciborium : Ciborium) (bytes : Bytes) : Prop :=
  ∃ contents canonical, unwrapped out bytes = some contents ∧ read ciborium contents = .frame canonical

variable {out : Outside} {writing : OutsideWriting} {ciborium : Ciborium}

theorem receives_unwrapped {hosts : Nat → Option Slot} {arrived : MessageNotification} {frame : Messenger.InboundFrame}
    {inbound : Inbound} (h : Receives out ciborium hosts arrived frame inbound) :
    ∃ contents, unwrapped out arrived.message = some contents ∧ read ciborium contents = inbound := by
  obtain ⟨hfed, m, to_, n, hpayload, hdeliver, hread⟩ := h
  refine ⟨n.message, ?_, hread⟩
  -- the frame was decoded from the bytes
  obtain ⟨decoded, hdecoded, rfl⟩ : ∃ decoded, decodeNotification out arrived.message = .ok decoded ∧
      frame = Messenger.intoInboundFrame decoded arrived := by
    rw [feed] at hfed
    split at hfed
    · split at hfed
      · rename_i decoded hdecoded
        split at hfed
        · exact ⟨decoded, hdecoded, (Messenger.Fed.handed.inj hfed).symm⟩
        · cases hfed
      · cases hfed
      · cases hfed
    · cases hfed
  rw [unwrapped, hdecoded]
  rw [Messenger.AgentDelivery.deliver] at hdeliver
  cases decoded with
  | data source destination messageId contents piggybackedAck =>
    obtain rfl := Messenger.InternalMessage.message.inj hpayload
    obtain ⟨-, rfl⟩ := Prod.mk.inj (Option.some.inj hdeliver)
    rfl
  | control signal evidence =>
    have hsignal : signal = .message m := hpayload
    subst hsignal
    have hcontents : m.contents = .notification n := by
      split at hdeliver
      · rename_i n' hcontents
        obtain ⟨-, rfl⟩ := Prod.mk.inj (Option.some.inj hdeliver)
        exact hcontents
      · cases hdeliver
    simp only [hcontents]

theorem unwrapped_receives (ciborium : Ciborium) {contents bytes : Bytes} (h : unwrapped out bytes = some contents) (cid peerCid : Nat) :
    ∃ frame, Receives out ciborium (fun _ => some (.running true)) ⟨bytes, cid, peerCid, none⟩ frame (read ciborium contents) := by
  rw [unwrapped] at h
  split at h
  · rename_i source destination messageId contents' piggybackedAck hdecoded
    obtain rfl := Option.some.inj h
    refine ⟨Messenger.intoInboundFrame (.data source destination messageId contents' piggybackedAck) ⟨bytes, cid, peerCid, none⟩,
      ?_, _, cid, ⟨contents', cid, peerCid, none⟩, rfl, rfl, rfl⟩
    simp only [feed, hdecoded, if_true]
  · rename_i m evidence hdecoded
    split at h
    · rename_i n hcontents
      obtain rfl := Option.some.inj h
      refine ⟨Messenger.intoInboundFrame (.control (.message m) evidence) ⟨bytes, cid, peerCid, none⟩, ?_, m, cid, n, rfl, ?_, rfl⟩
      · simp only [feed, hdecoded, if_true]
      · rw [Messenger.AgentDelivery.deliver, hcontents]
    · cases h
  · cases h

theorem reliable_unwrapped (hcodecs : Inverse writing out) {source destination messageId : Nat} {message bytes contents : Bytes}
    {extensions : FrameExtensions} (hranged : Ranged source destination messageId message extensions)
    (hsent : dataRequest writing source destination messageId message extensions = .ok bytes)
    (h : unwrapped out bytes = some contents) : contents = message := by
  rw [unwrapped] at h
  cases hdecoded : decodeNotification out bytes with
  | error err =>
    rw [hdecoded] at h
    exact nomatch h
  | ok decoded =>
    obtain ⟨piggybackedAck, rfl⟩ := Messenger.decode_dataRequest hcodecs hranged hsent hdecoded
    rw [hdecoded] at h
    exact (Option.some.inj h).symm

variable {sdk : Sdk} {beside : World → World → Prop} {uuid : Uuid}

theorem handled_admitted {leaf : Leaf} (served : ServesOne sdk beside uuid leaf) (h : leaf.handling ≠ none) :
    smugglesInternalHttp leaf.command = false := by
  cases served with
  | refused checked => exact absurd rfl h
  | handled checked ran => exact (checks_passed checked).smuggles

/-- A peer's agent finds internal HTTP in none of the bytes that the requests of a tree put on its link exactly when
no `Message` among them is itself a frame of the messenger's around an envelope. -/
theorem only_ihttpSend_carries_frames (hcodecs : Inverse writing out) {tree : InternalServiceRequest} {leaves : List Leaf}
    {answer : Option Response} (served : Serves sdk beside uuid tree leaves answer) :
    ((∀ leaf ∈ leaves, leaf.handling ≠ none → ∀ bytes, OnLink writing leaf.command bytes →
        ∀ hosts cid peerCid requestId frame inbound,
          Receives out ciborium hosts ⟨bytes, cid, peerCid, requestId⟩ frame inbound → ∀ canonical, inbound ≠ .frame canonical) ↔
      ∀ leaf ∈ leaves, leaf.handling ≠ none → ∀ cid message, leaf.command = .message cid message →
        ¬ CarriesFrame out ciborium message) ∧
    ∀ frame carries envelope, Ihttp.Wire.outbound ciborium frame carries = .ok envelope →
      carries = true ∧ ∃ checked, Ihttp.Wire.decode ciborium frame = .ok checked ∧ Ihttp.Wire.validate checked = .ok () ∧
        Ihttp.Wire.wrap ciborium checked = .ok envelope := by
  refine ⟨⟨fun h leaf hleaf hhandled cid message hcommand => ?_, fun h leaf hleaf hhandled bytes hlink => ?_⟩,
    fun frame carries envelope => Ihttp.Wire.outbound_checked⟩
  · rintro ⟨contents, canonical, hunwrapped, hread⟩
    obtain ⟨frame, hreceives⟩ := unwrapped_receives ciborium hunwrapped 0 0
    have hlink : OnLink writing leaf.command message := by
      rw [hcommand]
      exact .message
    exact h leaf hleaf hhandled message hlink _ _ _ _ _ _ hreceives canonical hread
  · intro hosts cid peerCid requestId frame inbound hreceives canonical hframe
    obtain ⟨contents, hunwrapped, hread⟩ := receives_unwrapped hreceives
    have hadmitted := handled_admitted (serves_leaves served leaf hleaf) hhandled
    cases hcommand : leaf.command with
    | message cid message =>
      rw [hcommand] at hlink
      cases hlink
      exact h leaf hleaf hhandled cid _ hcommand ⟨contents, canonical, hunwrapped, hread.trans hframe⟩
    | sendReliable cid message =>
      rw [hcommand] at hlink hadmitted
      cases hlink with
      | sendReliable ranged sent =>
        obtain rfl := reliable_unwrapped hcodecs ranged sent hunwrapped
        -- the agent's own check was on these bytes
        have hother : read ciborium contents = .other := Ihttp.Wire.read_other hadmitted
        exact nomatch (hother.symm.trans hread).trans hframe
    | _ =>
      rw [hcommand] at hlink
      exact nomatch hlink

/-! ## Two messages -/

def endFrame : Ihttp.Wire.IhttpFrame := ⟨1, 1, .end_⟩

def endBytes : Bytes :=
  [0xa3, 0x61, 0x76, 0x01, 0x66, 0x73, 0x74, 0x72, 0x65, 0x61, 0x6d, 0x01, 0x64, 0x6b, 0x69, 0x6e, 0x64, 0x63, 0x45, 0x6e, 0x64]

def endOnly : Ciborium where
  fromReader bytes := if endBytes.isPrefixOf bytes then .ok (endFrame, bytes.drop endBytes.length) else .error "another frame"
  intoWriter frame := if frame = endFrame then .ok endBytes else .error "another frame"

/-- Nothing is compressed. -/
def plainWriting : OutsideWriting := ⟨fun _ => [], fun _ _ => .error "no codec"⟩

theorem plainWriting_inverse : Inverse plainWriting Messenger.dataOnly where
  codec _ _ _ _ h := nomatch h
  decoded _ _ _ _ _ h := nomatch h
  plain _ _ _ h := nomatch h
  identity _ _ h := (Except.ok.inj h).symm

def sent (command : Request) : Leaf where
  command := command
  checking := Prog.trace answers (checks ⟨fun _ => false⟩ 1 command) (oneAccount false)
  handling := some (Prog.trace answers (dispatch 1 command) (Prog.run answers (checks ⟨fun _ => false⟩ 1 command) (oneAccount false)).2)
  answer := (Prog.run answers (dispatch 1 command) (Prog.run answers (checks ⟨fun _ => false⟩ 1 command) (oneAccount false)).2).1

def hi : Bytes := [104, 105]

theorem only_ihttpSend_carries_frames_hi :
    (∀ leaf ∈ [sent (.message 7 hi), sent (.sendReliable 7 hi)], leaf.handling ≠ none) ∧
      ∀ leaf ∈ [sent (.message 7 hi), sent (.sendReliable 7 hi)], ∀ bytes, OnLink plainWriting leaf.command bytes → ∀ hosts cid peerCid requestId frame inbound,
        Receives Messenger.dataOnly endOnly hosts ⟨bytes, cid, peerCid, requestId⟩ frame inbound →
          ∀ canonical, inbound ≠ .frame canonical := by
  have hmessage : ServesOne ⟨fun _ => false⟩ (fun _ _ => True) 1 (sent (.message 7 hi)) :=
    answered_served _ (oneAccount false) (fun _ _ => trivial) rfl
  have hreliable : ServesOne ⟨fun _ => false⟩ (fun _ _ => True) 1 (sent (.sendReliable 7 hi)) :=
    answered_served _ (oneAccount false) (fun _ _ => trivial) rfl
  have hplain : ∀ leaf ∈ [sent (.message 7 hi), sent (.sendReliable 7 hi)], ∀ cid message,
      leaf.command = .message cid message → ¬ CarriesFrame Messenger.dataOnly endOnly message := by
    rintro leaf hleaf cid message hcommand ⟨contents, canonical, hunwrapped, -⟩
    have hmessage : message = hi := by
      rcases List.mem_pair.mp hleaf with rfl | rfl
      · exact (Request.message.inj hcommand).2.symm
      · exact nomatch hcommand
    subst hmessage
    exact nomatch hunwrapped
  have hhandled : ∀ leaf ∈ [sent (.message 7 hi), sent (.sendReliable 7 hi)], leaf.handling ≠ none := by
    rintro leaf hleaf
    rcases List.mem_pair.mp hleaf with rfl | rfl
    · exact nofun
    · exact nofun
  have hserves : Serves ⟨fun _ => false⟩ (fun _ _ => True) 1 _ [sent (.message 7 hi), sent (.sendReliable 7 hi)] _ :=
    .cons (.one hmessage) (.cons (.one hreliable) .nil)
  have hframes : ∀ leaf ∈ [sent (.message 7 hi), sent (.sendReliable 7 hi)], leaf.handling ≠ none →
      ∀ bytes, OnLink plainWriting leaf.command bytes → ∀ hosts cid peerCid requestId frame inbound,
        Receives Messenger.dataOnly endOnly hosts ⟨bytes, cid, peerCid, requestId⟩ frame inbound →
          ∀ canonical, inbound ≠ .frame canonical :=
    (only_ihttpSend_carries_frames plainWriting_inverse hserves).1.mpr fun leaf hleaf _ => hplain leaf hleaf
  exact ⟨hhandled, fun leaf hleaf => hframes leaf hleaf (hhandled leaf hleaf)⟩

def smuggled : Bytes := Messenger.writeWrapper plainWriting (.message 7 9 5
  (Conversations.Cbor.Value.object [("type", .text ENVELOPE_KIND), ("payload", .bytes endBytes)]).encode)

theorem message_smuggles_a_frame :
    Serves ⟨fun _ => false⟩ (fun _ _ => True) 1 (.one (.message 7 smuggled)) [sent (.message 7 smuggled)]
        (sent (.message 7 smuggled)).answer ∧
      (sent (.message 7 smuggled)).handling ≠ none ∧ OnLink plainWriting (.message 7 smuggled) smuggled ∧
      ∃ frame, Receives Messenger.dataOnly endOnly (fun _ => some (.running true)) ⟨smuggled, 9, 7, none⟩ frame
        (.frame endBytes) := by
  have hunwrapped : unwrapped Messenger.dataOnly smuggled = some
      (Conversations.Cbor.Value.object [("type", .text ENVELOPE_KIND), ("payload", .bytes endBytes)]).encode := by
    decide +kernel
  have hread : read endOnly (Conversations.Cbor.Value.object [("type", .text ENVELOPE_KIND), ("payload", .bytes endBytes)]).encode =
      .frame endBytes := by
    rw [Ihttp.Wire.read_object (by decide)]
    have hcodec : Ihttp.Wire.decode endOnly endBytes >>= Ihttp.Wire.encode endOnly = .ok endBytes := by decide +kernel
    rw [hcodec]
  refine ⟨?_, nofun, .message, ?_⟩
  · have served : ServesOne ⟨fun _ => false⟩ (fun _ _ => True) 1 (sent (.message 7 smuggled)) :=
      answered_served _ (oneAccount false) (fun _ _ => trivial) rfl
    exact .one served
  · rw [← hread]
    exact unwrapped_receives _ hunwrapped 9 7

end CitadelAgent.Requests
