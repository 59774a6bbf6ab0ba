import CitadelAgent.Conversations.Command
import CitadelAgent.Conversations.StoredRoundTrip

/-!
# What the agent sends is what an agent reads

* `Value.Writable` : the values that read back, through objects, arrays and optional texts;
* `decode_messagingLayer` : a command read back as the value it was built of;
* `Built` : the commands the agent builds, `Built.bytes` and what each means;
* `read_built` : they are read as what they mean.
-/

namespace CitadelAgent.Conversations
open Cbor Result

/-! ## Values that read back -/

def Short (t : String) : Prop := (utf8 t).length < 2 ^ 64

instance (t : String) : Decidable (Short t) := inferInstanceAs (Decidable (_ < _))

namespace Cbor.Value

/-- The value fits, and nests at most `levels` deep. -/
def Writable (levels : Nat) (v : Value) : Prop := v.Fits ∧ v.nesting ≤ levels

variable {levels : Nat}

theorem Writable.mono {levels' : Nat} {v : Value} (h : v.Writable levels) (hle : levels ≤ levels') : v.Writable levels' :=
  ⟨h.1, h.2.trans hle⟩

theorem writable_text {t : String} (h : Short t) : (text t).Writable levels := ⟨h, Nat.zero_le _⟩

theorem writable_bigint (n : UInt64) : (bigint n).Writable levels := ⟨n.toNat_lt, Nat.zero_le _⟩

theorem writable_number (x : F64) : (number x).Writable levels :=
  ⟨(fits_number x).1, (fits_number x).2 ▸ Nat.zero_le _⟩

theorem writable_bool (b : Bool) : (bool b).Writable levels := ⟨trivial, Nat.zero_le _⟩

theorem writable_undefined : undefined.Writable levels := ⟨trivial, Nat.zero_le _⟩

theorem writable_optText {o : Option String} (h : ∀ t ∈ o, Short t) : (Command.optText o).Writable levels := by
  cases o with
  | none => exact writable_undefined
  | some t => exact writable_text (h t rfl)

theorem writable_array {items : List Value} (hlen : items.length < 2 ^ 64) (h : ∀ v ∈ items, v.Writable levels) :
    (array items).Writable (levels + 1) := by
  have hitems : FitsItems items ∧ nestingItems items ≤ levels + 1 := by
    clear hlen
    induction items with
    | nil => exact ⟨trivial, Nat.zero_le _⟩
    | cons v items ih =>
      obtain ⟨hf, hn⟩ := h v List.mem_cons_self
      obtain ⟨hfs, hns⟩ := ih fun w hw => h w (List.mem_cons_of_mem _ hw)
      exact ⟨⟨hf, hfs⟩, max_le (Nat.succ_le_succ hn) hns⟩
  exact ⟨⟨hlen, hitems.1⟩, hitems.2⟩

theorem writable_object {fields : List (String × Value)} (hlen : fields.length < 2 ^ 16)
    (hkeys : ∀ k ∈ fields.map Prod.fst, Short k) (h : (fields.map Prod.snd).Forall (·.Writable levels)) :
    (object fields).Writable (levels + 1) := by
  rw [List.forall_iff_forall_mem] at h
  have hentries : FitsEntries (fields.map fun f => (text f.1, f.2)) ∧
      nestingEntries (fields.map fun f => (text f.1, f.2)) ≤ levels + 1 := by
    clear hlen
    induction fields with
    | nil => exact ⟨trivial, Nat.zero_le _⟩
    | cons f fields ih =>
      obtain ⟨hf, hn⟩ := h f.2 (by simp)
      obtain ⟨hfs, hns⟩ := ih (fun k hk => hkeys k (List.mem_cons_of_mem _ hk)) fun v hv => h v (List.mem_cons_of_mem _ hv)
      exact ⟨⟨hkeys f.1 (by simp), hf, hfs⟩, max_le (max_le (by simp [nesting]) (Nat.succ_le_succ hn)) hns⟩
  refine ⟨⟨?_, hentries.1⟩, hentries.2⟩
  rw [List.length_map]
  exact hlen

@[simp] theorem asStr_text (t : String) : (text t).asStr = some t := rfl

@[simp] theorem asBigint_bigint (n : UInt64) : (bigint n).asBigint = some n := rfl

@[simp] theorem asBool_bool (b : Bool) : (bool b).asBool = some b := rfl

@[simp] theorem asStr_optText (o : Option String) : (Command.optText o).asStr = o := by
  cases o <;> rfl

theorem get_object (key : String) (fields : List (String × Value)) :
    (object fields).get key = (fields.find? fun f => f.1 = key).map Prod.snd := by
  simp only [object, get, List.find?_map, Option.map_map]
  rfl

theorem decode_of_writable {v : Value} (h : v.Writable MAX_DEPTH) : decode v.encode = .ok v := decode_encode h.1 h.2

end Cbor.Value

open Cbor.Value

/-! ## Commands -/

namespace Envelope

def eq (a b : Envelope) : Bool :=
  a.senderCid = b.senderCid && a.recipientCid = b.recipientCid && a.messageId = b.messageId && a.index.eq b.index &&
    a.replyTo = b.replyTo && a.mentions = b.mentions && optEq (listEq Attachment.eq) a.attachments b.attachments &&
    a.messageType = b.messageType && a.documentId = b.documentId && a.documentTitle = b.documentTitle

def numbers (e : Envelope) : List F64 := e.index :: (e.attachments.getD []).flatMap Attachment.numbers

def norm (e : Envelope) : Envelope :=
  { e with index := e.index.norm, attachments := e.attachments.map (List.map Attachment.norm) }

theorem norm_eq {e : Envelope} (hfin : AllFinite e.numbers) : e.norm.eq e = true := by
  have hindex := F64.norm_eq (hfin e.index List.mem_cons_self)
  have hattachments : optEq (listEq Attachment.eq) (e.attachments.map (List.map Attachment.norm)) e.attachments = true := by
    refine optEq_map fun list hl => listEq_map fun a ha => ?_
    have ha : a.fileSize.isFinite = true := hfin _ (by simp [numbers, hl, Attachment.numbers]; exact .inr ⟨a, ha, rfl⟩)
    simp [Attachment.eq, Attachment.norm, F64.norm_eq ha]
  simp [eq, norm, hindex, hattachments]

theorem norm_eq_self {e : Envelope} (hz : NoNegativeZero e.numbers) : e.norm = e := by
  have hindex := hz e.index List.mem_cons_self
  have hattachments : e.attachments.map (List.map Attachment.norm) = e.attachments := by
    cases hl : e.attachments with
    | none => rfl
    | some list =>
      refine congrArg some (map_eq_self fun a ha => ?_)
      have ha : a.fileSize.norm = a.fileSize := hz _ (by simp [numbers, hl, Attachment.numbers]; exact .inr ⟨a, ha, rfl⟩)
      rw [Attachment.norm, ha]
  rw [norm, hindex, hattachments]

/-- Its texts and lists are no longer than 64-bit lengths, as those of a `String` and a `Vec` are. -/
structure Sized (e : Envelope) : Prop where
  messageId : Short e.messageId
  replyTo : ∀ t ∈ e.replyTo, Short t
  mentions : ∀ list, e.mentions = some list → list.length < 2 ^ 64 ∧ ∀ t ∈ list, Short t
  attachments : ∀ list, e.attachments = some list → list.length < 2 ^ 64 ∧
    ∀ a ∈ list, Short a.fileId ∧ Short a.fileName ∧ Short a.fileType ∧ ∀ t ∈ a.thumbnail, Short t
  documentId : ∀ t ∈ e.documentId, Short t
  documentTitle : ∀ t ∈ e.documentTitle, Short t

end Envelope

namespace Inbound

def eq : Inbound → Inbound → Bool
  | .message e contents t, .message e' contents' t' => e.eq e' && contents = contents' && t.eq t'
  | .edit target contents t, .edit target' contents' t' => target = target' && contents = contents' && t.eq t'
  | .delete target, .delete target' => target = target'
  | .reaction target emoji active t, .reaction target' emoji' active' t' =>
    target = target' && emoji = emoji' && active = active' && t.eq t'
  | .screenshot e t, .screenshot e' t' => e.eq e' && optEq F64.eq t t'
  | .ack kind id, .ack kind' id' => kind = kind' && id = id'
  | .checkState, .checkState | .ephemeral, .ephemeral | .forAWindow, .forAWindow => true
  | _, _ => false

def numbers : Inbound → List F64
  | .message e _ t => t :: e.numbers
  | .edit _ _ t => [t]
  | .reaction _ _ _ t => [t]
  | .screenshot e t => t.toList ++ e.numbers
  | .delete _ | .ack .. | .checkState | .ephemeral | .forAWindow => []

end Inbound

inductive Built
  | message (contents : String) (timestamp : F64) (e : Envelope)
  | edit (target contents : String) (editedAt : F64) (e : Envelope)
  | delete (target : String) (deletedAt : F64) (e : Envelope)
  | reaction (target emoji : String) (active : Bool) (at_ : F64) (e : Envelope)
  | checkStateResponse (e : Envelope)
  | ack (kind : AckKind) (messageId : String) (timestamp : F64)

namespace Built

def bytes : Built → List UInt8
  | .message contents timestamp e => Command.messagingLayer (Command.messageLayer contents timestamp) e
  | .edit target contents editedAt e => Command.messagingLayer (Command.editLayer target contents editedAt) e
  | .delete target deletedAt e => Command.messagingLayer (Command.deleteLayer target deletedAt) e
  | .reaction target emoji active at_ e => Command.messagingLayer (Command.reactionLayer target emoji active at_) e
  | .checkStateResponse e => Command.messagingLayer Command.checkStateResponse e
  | .ack kind messageId timestamp => Command.ack kind messageId timestamp

def meaning : Built → Inbound
  | .message contents timestamp e => .message e contents timestamp
  | .edit target contents editedAt _ => .edit target contents editedAt
  | .delete target _ _ => .delete target
  | .reaction target emoji active at_ _ => .reaction target emoji active at_
  | .checkStateResponse _ => .ephemeral
  | .ack kind messageId _ => .ack kind messageId

/-- Its texts and lists are no longer than 64-bit lengths. -/
def Sized : Built → Prop
  | .message contents _ e => Short contents ∧ e.Sized
  | .edit target contents _ e => Short target ∧ Short contents ∧ e.Sized
  | .delete target _ e => Short target ∧ e.Sized
  | .reaction target emoji _ _ e => Short target ∧ Short emoji ∧ e.Sized
  | .checkStateResponse e => e.Sized
  | .ack _ messageId _ => Short messageId

end Built

namespace Command

/-! ## A command as it is decoded -/

theorem writable_attachmentItem {a : Attachment}
    (h : Short a.fileId ∧ Short a.fileName ∧ Short a.fileType ∧ ∀ t ∈ a.thumbnail, Short t) :
    (attachmentItem a).Writable 1 := by
  obtain ⟨hid, hname, htype, hthumbnail⟩ := h
  refine writable_object (by simp) ?_
    ⟨writable_text hid, writable_text hname, writable_number _, writable_text htype, writable_optText hthumbnail⟩
  simp only [List.map_cons, List.map_nil]
  decide +kernel

theorem writable_optArray {α : Type} {item : α → Value} {levels : Nat} {o : Option (List α)}
    (h : ∀ list, o = some list → list.length < 2 ^ 64 ∧ ∀ a ∈ list, (item a).Writable levels) :
    (optArray item o).Writable (levels + 1) := by
  cases o with
  | none => exact writable_undefined
  | some list =>
    obtain ⟨hlen, hitems⟩ := h list rfl
    refine writable_array (by rw [List.length_map]; exact hlen) fun v hv => ?_
    obtain ⟨a, ha, rfl⟩ := List.mem_map.mp hv
    exact hitems a ha

/-- The payload of a `MessagingLayerCommand`. -/
def payloadOf (layer : Value) (e : Envelope) : Value :=
  .object [("layer", layer), ("sender_cid", .bigint e.senderCid), ("recipient_cid", .bigint e.recipientCid),
    ("message_id", .text e.messageId), ("index", .number e.index), ("reply_to", optText e.replyTo),
    ("mentions", optArray .text e.mentions), ("attachments", optArray attachmentItem e.attachments),
    ("message_type", .text (messageTypeName e.messageType)), ("document_id", optText e.documentId),
    ("document_title", optText e.documentTitle)]

def commandOf (type : String) (payload : Value) : Value := .object [("type", .text type), ("payload", payload)]

theorem decode_commandOf (type : String) {payload : Value} (htype : Short type) (h : payload.Writable 3) :
    Value.decode (commandOf type payload).encode = .ok (commandOf type payload) := by
  have hw : (commandOf type payload).Writable 4 := by
    refine writable_object (by simp) ?_ ⟨writable_text htype, h⟩
    simp only [List.map_cons, List.map_nil]
    decide +kernel
  exact decode_of_writable (hw.mono (by decide))

theorem writable_payloadOf {layer : Value} {e : Envelope} (hlayer : layer.Writable 2) (he : e.Sized) :
    (payloadOf layer e).Writable 3 := by
  have htype : Short (messageTypeName e.messageType) := by
    cases e.messageType <;> decide +kernel
  refine writable_object (by simp) ?_ ⟨hlayer, writable_bigint _, writable_bigint _, writable_text he.messageId,
    writable_number _, writable_optText he.replyTo, ?_, ?_, writable_text htype, writable_optText he.documentId,
    writable_optText he.documentTitle⟩
  · simp only [List.map_cons, List.map_nil]
    decide +kernel
  · refine writable_optArray fun list hl => ⟨(he.mentions list hl).1, fun t ht => ?_⟩
    exact writable_text ((he.mentions list hl).2 t ht)
  · refine writable_optArray fun list hl => ⟨(he.attachments list hl).1, fun a ha => ?_⟩
    exact writable_attachmentItem ((he.attachments list hl).2 a ha)

/-! ## What is read of it -/

theorem messageType_messageTypeName (t : MessageType) : messageType (some (messageTypeName t)) = t := by
  cases t <;> decide

theorem attachment_attachmentItem (a : Attachment) : attachment (attachmentItem a) = some a.norm := by
  have hn := asNumber_number a.fileSize
  simp [attachment, attachmentItem, get_object, string, hn, Attachment.norm]

theorem items_optArray {α β : Type} {item : α → Value} {read : Value → Option β} {f : α → β}
    (h : ∀ a, read (item a) = some (f a)) (o : Option (List α)) :
    items read (some (optArray item o)) = o.map (List.map f) := by
  cases o with
  | none => rfl
  | some list =>
    have hlist : (list.map item).filterMap read = list.map f := by
      induction list with
      | nil => rfl
      | cons a list ih => simp [h, ih]
    exact congrArg some hlist

theorem envelope_payloadOf (layer : Value) (e : Envelope) : envelope (payloadOf layer e) = some e.norm := by
  have hmentions : items Value.asStr (some (optArray .text e.mentions)) = e.mentions := by
    have h := items_optArray (f := fun t : String => t) asStr_text e.mentions
    rw [h]
    cases e.mentions <;> simp
  have hattachments := items_optArray attachment_attachmentItem e.attachments
  have htype := messageType_messageTypeName e.messageType
  have hindex := asNumber_number e.index
  simp [envelope, payloadOf, get_object, string, hmentions, hattachments, htype, hindex, Envelope.norm]

theorem get_layer (layer : Value) (e : Envelope) : (payloadOf layer e).get "layer" = some layer := by
  simp [payloadOf, get_object]

theorem read_messagingLayer {layer : Value} {e : Envelope} (hlayer : layer.Writable 2) (he : e.Sized) :
    read (messagingLayer layer e) = readLayer (payloadOf layer e) := by
  have hdec := decode_commandOf "MessagingLayerCommand" (by decide +kernel) (writable_payloadOf hlayer he)
  have hbytes : messagingLayer layer e = (commandOf "MessagingLayerCommand" (payloadOf layer e)).encode := rfl
  rw [read, hbytes, hdec]
  simp [commandOf, get_object, Except.toOption]

end Command

namespace Built

/-! ## The commands -/

def readAs : Built → Inbound
  | .message contents timestamp e => .message e.norm contents timestamp.norm
  | .edit target contents editedAt _ => .edit target contents editedAt.norm
  | .delete target _ _ => .delete target
  | .reaction target emoji active at_ _ => .reaction target emoji active at_.norm
  | .checkStateResponse _ => .ephemeral
  | .ack kind messageId _ => .ack kind messageId

theorem read_bytes {b : Built} (h : b.Sized) : Command.read b.bytes = some b.readAs := by
  cases b with
  | message contents timestamp e =>
    have hlayer : (Command.messageLayer contents timestamp).Writable 2 := by
      refine writable_object (by simp) ?_ ⟨writable_text (by decide +kernel), writable_text h.1, writable_number _⟩
      simp only [List.map_cons, List.map_nil]
      decide +kernel
    have hn := asNumber_number timestamp
    have he := Command.envelope_payloadOf (Command.messageLayer contents timestamp) e
    obtain ⟨htype, hcontents, htime⟩ : (Command.messageLayer contents timestamp).get "type" = some (.text "Message") ∧
        (Command.messageLayer contents timestamp).get "contents" = some (.text contents) ∧
        (Command.messageLayer contents timestamp).get "timestamp" = some (.number timestamp) := by
      simp [Command.messageLayer, get_object]
    rw [bytes, Command.read_messagingLayer hlayer h.2]
    simp [Command.readLayer, Command.get_layer, he, htype, hcontents, htime, hn, Command.string, readAs]
  | edit target contents editedAt e =>
    have hlayer : (Command.editLayer target contents editedAt).Writable 2 := by
      refine writable_object (by simp) ?_
        ⟨writable_text (by decide +kernel), writable_text h.1, writable_text h.2.1, writable_number _⟩
      simp only [List.map_cons, List.map_nil]
      decide +kernel
    have hn := asNumber_number editedAt
    rw [bytes, Command.read_messagingLayer hlayer h.2.2]
    simp [Command.readLayer, Command.get_layer, Command.editLayer, get_object, hn, Command.string, readAs]
  | delete target deletedAt e =>
    have hlayer : (Command.deleteLayer target deletedAt).Writable 2 := by
      refine writable_object (by simp) ?_ ⟨writable_text (by decide +kernel), writable_text h.1, writable_number _⟩
      simp only [List.map_cons, List.map_nil]
      decide +kernel
    rw [bytes, Command.read_messagingLayer hlayer h.2]
    simp [Command.readLayer, Command.get_layer, Command.deleteLayer, get_object, Command.string, readAs]
  | reaction target emoji active at_ e =>
    have hlayer : (Command.reactionLayer target emoji active at_).Writable 2 := by
      refine writable_object (by simp) ?_
        ⟨writable_text (by decide +kernel), writable_text h.1, writable_text h.2.1, writable_bool _, writable_number _⟩
      simp only [List.map_cons, List.map_nil]
      decide +kernel
    have hn := asNumber_number at_
    rw [bytes, Command.read_messagingLayer hlayer h.2.2]
    simp [Command.readLayer, Command.get_layer, Command.reactionLayer, get_object, hn, Command.string, readAs]
  | checkStateResponse e =>
    have hlayer : Command.checkStateResponse.Writable 2 := by
      refine writable_object (by simp) ?_ ⟨writable_text (by decide +kernel), writable_bool _⟩
      simp only [List.map_cons, List.map_nil]
      decide +kernel
    rw [bytes, Command.read_messagingLayer hlayer h]
    simp [Command.readLayer, Command.get_layer, Command.checkStateResponse, get_object, readAs]
  | ack kind messageId timestamp =>
    have hpayload : (Value.object [("ack_type", .text kind.name), ("message_id", .text messageId),
        ("timestamp", .number timestamp), ("error", .undefined)]).Writable 3 := by
      refine writable_object (by simp) ?_ ⟨writable_text ?_, writable_text h, writable_number _, writable_undefined⟩
      · simp only [List.map_cons, List.map_nil]
        decide +kernel
      · cases kind <;> decide +kernel
    have hdec := Command.decode_commandOf "MessageAck" (by decide +kernel) hpayload
    rw [bytes, Command.ack, ← Command.commandOf, Command.read, hdec]
    cases kind <;>
      simp [Command.commandOf, Command.readAck, get_object, Except.toOption, AckKind.name, Command.string, readAs]

/-- A command of finite numbers is read equal to what it means, and to the bit where no number is a negative zero. -/
theorem read_built (b : Built) (h : b.Sized) (hfin : AllFinite b.meaning.numbers) :
    ∃ i, Command.read b.bytes = some i ∧ i.eq b.meaning = true ∧ (NoNegativeZero b.meaning.numbers → i = b.meaning) := by
  refine ⟨b.readAs, read_bytes h, ?_, fun hz => ?_⟩
  · cases b with
    | message contents timestamp e =>
      obtain ⟨htime, he⟩ := List.forall_mem_cons.mp hfin
      simp [readAs, meaning, Inbound.eq, F64.norm_eq htime, Envelope.norm_eq he]
    | edit target contents t e => simp [readAs, meaning, Inbound.eq, F64.norm_eq (hfin t List.mem_cons_self)]
    | reaction target emoji active t e =>
      simp [readAs, meaning, Inbound.eq, F64.norm_eq (hfin t List.mem_cons_self)]
    | delete target t e => simp [readAs, meaning, Inbound.eq]
    | checkStateResponse e => rfl
    | ack kind messageId t => simp [readAs, meaning, Inbound.eq]
  · cases b with
    | message contents timestamp e =>
      obtain ⟨htime, he⟩ := List.forall_mem_cons.mp hz
      rw [readAs, meaning, htime, Envelope.norm_eq_self he]
    | edit target contents t e => rw [readAs, meaning, hz t List.mem_cons_self]
    | reaction target emoji active t e => rw [readAs, meaning, hz t List.mem_cons_self]
    | delete | checkStateResponse | ack => rfl

def firstReply : Built :=
  .message "hello" (F64.ofNat 7) {
    senderCid := 1, recipientCid := 2, messageId := "m2", index := F64.ofNat 2, replyTo := some "m1"
    mentions := some ["bob"], attachments := some [⟨"f", "a.txt", F64.ofNat 3, "text/plain", none⟩]
    messageType := .markdown, documentId := none, documentTitle := none }

theorem read_built_reply : ∃ i, Command.read firstReply.bytes = some i ∧ i.eq firstReply.meaning = true ∧
    (NoNegativeZero firstReply.meaning.numbers → i = firstReply.meaning) := by
  refine read_built firstReply ⟨by decide +kernel, ?_⟩ ?_
  · refine ⟨by decide +kernel, by decide +kernel, fun list hl => ?_, fun list hl => ?_, by decide, by decide⟩
    · obtain rfl := Option.some.inj hl
      decide +kernel
    · obtain rfl := Option.some.inj hl
      decide +kernel
  · unfold AllFinite
    decide +kernel

end Built

end CitadelAgent.Conversations
