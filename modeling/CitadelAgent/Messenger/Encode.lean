import CitadelAgent.Lib.Result
import CitadelAgent.Messenger.Wire

/-!
# The messenger's outgoing frames

`citadel-internal-service-connector/src/messenger/wire/mod.rs`: the data frame that carries an application's bytes to a peer.

* `dataRequest` : the bytes of a data frame, by the extensions that ILM asks for;
* `decode_dataRequest` : what a peer decodes of them is what was handed over.
-/

namespace CitadelAgent.Messenger
open BigEndian Result

structure Plan where
  hint : String
  codecs : Nat

inductive FrameExtensions
  | none
  | negotiated (piggybackedAck : Option Nat) (compression : Option Plan)
  | advertise (flags : UInt8) (codecs : Nat)

inductive EncodeError
  | unencodable (reason : String)
  | compression (why : String)

structure OutsideWriting where
  /-- `bincode` of ILM's `Payload`. -/
  signal : InternalMessage → List UInt8
  /-- `compression::encode` : the wire id of the codec it chose, and the encoded bytes. -/
  deflate : Plan → List UInt8 → Except String (Nat × List UInt8)

/-- The wire id of `Codec::Identity`. -/
def IDENTITY : Nat := 0

/-! ## `bincode` -/

def writeLe (k n : Nat) : List UInt8 := (beBytes k n).reverse

def writeOption : Option Nat → List UInt8
  | none => writeLe 1 0
  | some value => writeLe 1 1 ++ writeLe 8 value

def writeVec (bytes : List UInt8) : List UInt8 := writeLe 8 bytes.length ++ bytes

def writeWrapper (writing : OutsideWriting) : WireWrapper → List UInt8
  | .message source destination messageId contents =>
    writeLe 4 0 ++ (writeLe 8 source ++ (writeLe 8 destination ++ (writeLe 8 messageId ++ writeVec contents)))
  | .ismAux signal => writeLe 4 1 ++ writing.signal signal
  | .messageV2 source destination messageId codec dictId piggybackedAck contents =>
    writeLe 4 2 ++ (writeLe 8 source ++ (writeLe 8 destination ++ (writeLe 8 messageId ++ (writeLe 1 codec ++
      (writeLe 2 dictId ++ (writeOption piggybackedAck ++ writeVec contents))))))

theorem readBytes_append (bytes rest : List UInt8) : readBytes bytes.length (bytes ++ rest) = .ok (bytes, rest) := by
  simp [readBytes]

theorem readLe_append {k n : Nat} (h : n < 256 ^ k) (rest : List UInt8) : readLe k (writeLe k n ++ rest) = .ok (n, rest) := by
  have hlen : (writeLe k n).length = k := by simp [writeLe]
  have hread := readBytes_append (writeLe k n) rest
  rw [hlen] at hread
  rw [readLe, hread, ok_bind]
  simp [writeLe, ofBe_beBytes h]

theorem readOption_append {value : Option Nat} (h : ∀ n, value = some n → n < 2 ^ 64) (rest : List UInt8) :
    readOption (writeOption value ++ rest) = .ok (value, rest) := by
  cases value with
  | none => rw [readOption, writeOption, readLe_append (by decide), ok_bind]; rfl
  | some n =>
    rw [readOption, writeOption, List.append_assoc, readLe_append (by decide), ok_bind]
    simp only
    rw [readLe_append (by simpa using h n rfl), ok_bind]
    rfl

theorem readVec_append {bytes : List UInt8} (h : bytes.length < 2 ^ 64) (rest : List UInt8) :
    readVec (writeVec bytes ++ rest) = .ok (bytes, rest) := by
  rw [readVec, writeVec, List.append_assoc, readLe_append (by simpa using h), ok_bind]
  exact readBytes_append bytes rest

section
variable (out : Outside) (writing : OutsideWriting) {source destination messageId : Nat} {contents : List UInt8}

theorem readWrapper_message (hsource : source < 2 ^ 64) (hdestination : destination < 2 ^ 64) (hid : messageId < 2 ^ 64)
    (hcontents : contents.length < 2 ^ 64) :
    readWrapper out (writeWrapper writing (.message source destination messageId contents)) =
      .ok (.message source destination messageId contents, []) := by
  have hvec := readVec_append hcontents []
  rw [List.append_nil] at hvec
  rw [readWrapper, writeWrapper, readLe_append (by decide), ok_bind]
  simp only
  rw [readLe_append (by simpa using hsource), ok_bind]
  simp only
  rw [readLe_append (by simpa using hdestination), ok_bind]
  simp only
  rw [readLe_append (by simpa using hid), ok_bind]
  simp only
  rw [hvec, ok_bind]
  rfl

theorem readWrapper_messageV2 {codec : Nat} {piggybackedAck : Option Nat} (hsource : source < 2 ^ 64)
    (hdestination : destination < 2 ^ 64) (hid : messageId < 2 ^ 64) (hcodec : codec < 256)
    (hack : ∀ n, piggybackedAck = some n → n < 2 ^ 64) (hcontents : contents.length < 2 ^ 64) :
    readWrapper out (writeWrapper writing (.messageV2 source destination messageId codec 0 piggybackedAck contents)) =
      .ok (.messageV2 source destination messageId codec 0 piggybackedAck contents, []) := by
  have hvec := readVec_append hcontents []
  rw [List.append_nil] at hvec
  rw [readWrapper, writeWrapper, readLe_append (n := 2) (by decide), ok_bind]
  simp only
  rw [readLe_append (by simpa using hsource), ok_bind]
  simp only
  rw [readLe_append (by simpa using hdestination), ok_bind]
  simp only
  rw [readLe_append (by simpa using hid), ok_bind]
  simp only
  rw [readLe_append (by simpa using hcodec), ok_bind]
  simp only
  rw [readLe_append (by decide), ok_bind]
  simp only
  rw [readOption_append hack, ok_bind]
  simp only
  rw [hvec, ok_bind]
  rfl

end

/-! ## A data frame -/

section
variable (writing : OutsideWriting)

def encodeContents (raw : List UInt8) : Option Plan → Except EncodeError (Nat × List UInt8)
  | some plan => (writing.deflate plan raw).mapError .compression
  | none => .ok (IDENTITY, raw)

def dataWrapper (source destination messageId : Nat) (raw : List UInt8) : FrameExtensions → Except EncodeError WireWrapper
  | .none => .ok (.message source destination messageId raw)
  | .negotiated piggybackedAck compression => do
    let (codec, bytes) ← encodeContents writing raw compression
    if codec = IDENTITY ∧ piggybackedAck = none then
      -- compression did not pay and nothing else rides along
      pure (.message source destination messageId bytes)
    else pure (.messageV2 source destination messageId codec 0 piggybackedAck bytes)
  | .advertise _ _ =>
    .error (.unencodable s!"data frame {messageId} carries an advertisement; only Ack and Poll may")

def dataRequest (source destination messageId : Nat) (raw : List UInt8) (extensions : FrameExtensions) :
    Except EncodeError (List UInt8) :=
  (dataWrapper writing source destination messageId raw extensions).map (writeWrapper writing)

end

/-- What the codecs promise: what is decoded is what was encoded, whichever codec was chosen. -/
structure Inverse (writing : OutsideWriting) (out : Outside) : Prop where
  codec : ∀ plan raw codec bytes, writing.deflate plan raw = .ok (codec, bytes) → codec < 256 ∧ bytes.length < 2 ^ 64
  decoded : ∀ plan raw codec bytes contents, writing.deflate plan raw = .ok (codec, bytes) →
    out.inflate codec bytes = .ok contents → contents = raw
  plain : ∀ plan raw bytes, writing.deflate plan raw = .ok (IDENTITY, bytes) → bytes = raw
  identity : ∀ raw contents, out.inflate IDENTITY raw = .ok contents → contents = raw

structure Ranged (source destination messageId : Nat) (raw : List UInt8) (extensions : FrameExtensions) : Prop where
  source : source < 2 ^ 64
  destination : destination < 2 ^ 64
  messageId : messageId < 2 ^ 64
  raw : raw.length < 2 ^ 64
  ack : ∀ n compression, extensions = .negotiated (some n) compression → n < 2 ^ 64

theorem decode_dataRequest {writing : OutsideWriting} {out : Outside} (hcodecs : Inverse writing out)
    {source destination messageId : Nat} {raw bytes : List UInt8} {extensions : FrameExtensions}
    (hranged : Ranged source destination messageId raw extensions)
    (hsent : dataRequest writing source destination messageId raw extensions = .ok bytes) {decoded : Decoded}
    (hdecoded : decodeNotification out bytes = .ok decoded) :
    ∃ piggybackedAck, decoded = .data source destination messageId raw piggybackedAck := by
  obtain ⟨hsource, hdestination, hid, hraw, hack⟩ := hranged
  have hplain {bytes : List UInt8} (h : decodeNotification out bytes = .ok decoded)
      (hbytes : bytes = writeWrapper writing (.message source destination messageId raw)) :
      ∃ piggybackedAck, decoded = .data source destination messageId raw piggybackedAck := by
    rw [decodeNotification, hbytes, readWrapper_message out writing hsource hdestination hid hraw] at h
    exact ⟨none, (Except.ok.inj h).symm⟩
  cases extensions with
  | none => exact hplain hdecoded (Except.ok.inj hsent).symm
  | advertise flags codecs => exact nomatch hsent
  | negotiated piggybackedAck compression =>
    cases hencoded : encodeContents writing raw compression with
    | error why =>
      rw [dataRequest, dataWrapper, hencoded] at hsent
      exact nomatch hsent
    | ok encoded =>
      obtain ⟨codec, contents⟩ := encoded
      rw [dataRequest, dataWrapper, hencoded, ok_bind] at hsent
      have hcodec : (codec < 256 ∧ contents.length < 2 ^ 64) ∧ (codec = IDENTITY → contents = raw) ∧
          ∀ inflated, out.inflate codec contents = .ok inflated → inflated = raw := by
        cases compression with
        | none =>
          obtain ⟨rfl, rfl⟩ := Prod.mk.inj (Except.ok.inj hencoded)
          exact ⟨⟨by decide, hraw⟩, fun _ => rfl, hcodecs.identity raw⟩
        | some plan =>
          have hdeflate : writing.deflate plan raw = .ok (codec, contents) := by
            rw [encodeContents] at hencoded
            cases hd : writing.deflate plan raw with
            | error why =>
              rw [hd] at hencoded
              exact nomatch hencoded
            | ok encoded =>
              rw [hd] at hencoded
              rw [Except.ok.inj hencoded]
          refine ⟨hcodecs.codec _ _ _ _ hdeflate, fun hid => ?_, fun inflated => hcodecs.decoded _ _ _ _ _ hdeflate⟩
          subst hid
          exact hcodecs.plain _ _ _ hdeflate
      obtain ⟨⟨hlt, hlength⟩, hsame, hinflated⟩ := hcodec
      by_cases hidentity : codec = IDENTITY ∧ piggybackedAck = none
      · simp only [if_pos hidentity] at hsent
        refine hplain hdecoded ?_
        rw [← hsame hidentity.1]
        exact (Except.ok.inj hsent).symm
      · simp only [if_neg hidentity] at hsent
        have hbytes : bytes = writeWrapper writing (.messageV2 source destination messageId codec 0 piggybackedAck contents) :=
          (Except.ok.inj hsent).symm
        have hread := readWrapper_messageV2 out writing hsource hdestination hid hlt
          (fun n hn => hack n compression (hn ▸ rfl)) hlength
        rw [decodeNotification, hbytes, hread] at hdecoded
        simp only [ne_eq, not_true_eq_false, if_false] at hdecoded
        cases hinflate : out.inflate codec contents with
        | error why =>
          rw [hinflate] at hdecoded
          exact nomatch hdecoded
        | ok inflated =>
          rw [hinflate] at hdecoded
          rw [hinflated inflated hinflate] at hdecoded
          exact ⟨piggybackedAck, (Except.ok.inj hdecoded).symm⟩

end CitadelAgent.Messenger
