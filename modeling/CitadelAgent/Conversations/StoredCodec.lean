import CitadelAgent.Conversations.CborCodec
import CitadelAgent.Conversations.Stored

/-!
# The stored form: what reads back

* `ConversationMessage.Readable`, `ConversationMessage.norm` : the messages whose stored form reads back, and as what;
* `decodePage_encodePage`, `decodeMetadata_encodeMetadata` : a stored page (metadata record) reads back exactly when
  its required numbers are finite, and then as itself with positive zeros.
-/

namespace CitadelAgent.Conversations
open Json (Fields)
open Result

/-! ## Numbers -/

theorem safeInteger_scaled : safeInteger.scaled = (2 ^ 53 : Nat) * F64.oneMag ∧ safeInteger.isFinite = true := by
  have hbits : (53 + 1023 : Int).toNat * 2 ^ 52 < 2 ^ 63 := by decide
  refine ⟨?_, by rw [F64.isFinite_iff, safeInteger, F64.pow2, F64.absBits_ofSignBits hbits]; decide⟩
  have hmag : F64.magBits ((53 + 1023 : Int).toNat * 2 ^ 52) = 2 ^ 53 * F64.oneMag := by
    have hd : ((53 + 1023 : Int).toNat * 2 ^ 52) / 2 ^ 52 - 1 = 1075 := by decide
    unfold F64.magBits F64.oneMag
    rw [if_neg (by decide), hd, show ((53 + 1023 : Int).toNat * 2 ^ 52) % 2 ^ 52 = 0 by decide, Nat.add_zero,
      F64.two_pow_mul (c := 1127) (by norm_num), F64.two_pow_mul (c := 1127) (by norm_num)]
  unfold F64.scaled safeInteger F64.pow2
  rw [F64.absBits_ofSignBits hbits, F64.isSignNegative_ofSignBits hbits, hmag]
  rfl

theorem readF64_jsNumbers (f : FiniteF64) : Json.readF64 (jsNumbers (.number (.float f))) = .ok f.val.norm := by
  obtain ⟨x, hx⟩ := f
  unfold jsNumbers
  split_ifs with h
  · simp only [Bool.and_eq_true] at h
    obtain ⟨hfract, hlt⟩ := h
    have hd := F64.dvd_of_fract hx hfract
    have habs : x.abs.isFinite = true ∧ x.abs.scaled = F64.magBits x.absBits := by
      have hb : x.absBits < 2 ^ 63 := (F64.isFinite_iff.mp hx).trans F64.infBits_lt
      rw [F64.isFinite_iff, F64.abs, F64.scaled, F64.absBits_ofSignBits hb, F64.isSignNegative_ofSignBits hb]
      exact ⟨F64.isFinite_iff.mp hx, rfl⟩
    rw [F64.lt_iff habs.1 safeInteger_scaled.2, habs.2, safeInteger_scaled.1] at hlt
    have hwhole : x.wholeUnits < 2 ^ 53 := F64.wholeUnits_lt (by exact_mod_cast hlt)
    have hs : F64.Small x.intPart := by
      unfold F64.Small F64.intPart
      split_ifs <;> omega
    simp only [Json.readF64, F64.toI64_eq_intPart hx hs, Json.Number.asF64_ofInt hs, F64.norm_eq_ofInt hd hs]
  · have hne : x.absBits ≠ 0 := by
      intro h0
      have hzero : ∀ s, ((F64.ofSignBits s 0).fract.eq (F64.ofInt 0) && (F64.ofSignBits s 0).abs.lt safeInteger) := by
        decide +kernel
      have hz := hzero x.isSignNegative
      rw [← F64.eq_ofSignBits_zero h0] at hz
      exact h hz
    simp [Json.readF64, Json.Number.asF64, F64.norm_eq_self hne]

/-! ## Fields -/

/-- A field as it is stored: not at all when `null`. -/
def wire (v : Json) : Option Json := if v.isNull then none else some (jsNumbers v)

theorem get_jsFields {fields : Fields} (hnd : (fields.map Prod.fst).Nodup) (key : String) :
    Fields.get (jsFields fields) key = (Fields.get fields key).bind wire := by
  induction fields with
  | nil => rfl
  | cons field fields ih =>
    obtain ⟨k, v⟩ := field
    simp only [List.map_cons, List.nodup_cons] at hnd
    have hih := ih hnd.2
    by_cases h : k = key
    · subst h
      have hnone : Fields.get fields k = none := Fields.get_eq_none_of_not_mem hnd.1
      cases hv : v.isNull with
      | true => simp [jsFields, Fields.get, wire, hv, hih, hnone]
      | false => simp [jsFields, Fields.get, wire, hv]
    · cases hv : v.isNull with
      | true => simp [jsFields, Fields.get, hv, h, hih]
      | false => simp [jsFields, Fields.get, hv, h, hih]

theorem jsItems_eq_map (items : List Json) : jsItems items = items.map jsNumbers := by
  induction items with
  | nil => rfl
  | cons v items ih => simp [jsItems, ih]

theorem jsNumbers_listValue {α : Type} (f : α → Json) (list : List α) :
    jsNumbers (listValue f list) = listValue (fun a => jsNumbers (f a)) list := by
  simp [listValue, jsNumbers, jsItems_eq_map]

@[simp] theorem jsNumbers_string (t : String) : jsNumbers (.string t) = .string t := by simp [jsNumbers]

variable (cid : Cid)

@[simp] theorem jsNumbers_cidValue : jsNumbers (cidValue cid) = cidValue cid := by
  simp [jsNumbers, cidValue]

@[simp] theorem jsNumbers_u32Value (n : UInt32) : jsNumbers (u32Value n) = u32Value n := by
  simp [jsNumbers, u32Value]

@[simp] theorem jsNumbers_byteValue (b : UInt8) : jsNumbers (byteValue b) = byteValue b := by
  simp [jsNumbers, byteValue]

@[simp] theorem jsNumbers_bool (b : Bool) : jsNumbers (.bool b) = .bool b := by simp [jsNumbers]

@[simp] theorem wire_string (t : String) : wire (.string t) = some (.string t) := by simp [wire, Json.isNull]

@[simp] theorem wire_cidValue : wire (cidValue cid) = some (cidValue cid) := by
  simp [wire, cidValue, Json.isNull, jsNumbers]

@[simp] theorem wire_u32Value (n : UInt32) : wire (u32Value n) = some (u32Value n) := by
  simp [wire, u32Value, Json.isNull, jsNumbers]

@[simp] theorem wire_variantValue {α : Type} [DecidableEq α] (variants : List (String × α)) (a : α) :
    wire (variantValue variants a) = some (variantValue variants a) := by
  simp [variantValue]

theorem wire_listValue {α : Type} (f : α → Json) (list : List α) :
    wire (listValue f list) = some (listValue (fun a => jsNumbers (f a)) list) := by
  rw [wire, jsNumbers_listValue]
  rfl

@[simp] theorem readU64_cidValue : Json.readU64 (cidValue cid) = .ok cid := rfl

@[simp] theorem readU32_u32Value (n : UInt32) : Json.readU32 (u32Value n) = .ok n := by
  have hn := n.toNat_lt
  have h64 : (UInt64.ofNat n.toNat).toNat = n.toNat := UInt64.toNat_ofNat_of_lt' (Nat.lt_trans hn (by decide))
  simp only [u32Value, Json.readU32, h64, hn, if_true, UInt32.ofNat_toNat]

@[simp] theorem readU8_byteValue (b : UInt8) : Json.readU8 (byteValue b) = .ok b := by
  have hb := b.toNat_lt
  have h64 : (UInt64.ofNat b.toNat).toNat = b.toNat := UInt64.toNat_ofNat_of_lt' (Nat.lt_trans hb (by decide))
  simp only [byteValue, Json.readU8, h64, hb, if_true, UInt8.ofNat_toNat]

@[simp] theorem readVariant_status (x : MessageStatus) :
    Json.readVariant MessageStatus.variants (variantValue MessageStatus.variants x) = .ok x := by
  cases x <;> rfl

@[simp] theorem readVariant_type (x : MessageType) :
    Json.readVariant MessageType.variants (variantValue MessageType.variants x) = .ok x := by
  cases x <;> rfl

@[simp] theorem readVariant_mode (x : TransferMode) :
    Json.readVariant TransferMode.variants (variantValue TransferMode.variants x) = .ok x := by
  cases x <;> rfl

@[simp] theorem readVariant_state (x : TransferState) :
    Json.readVariant TransferState.variants (variantValue TransferState.variants x) = .ok x := by
  cases x <;> rfl

section Reads

variable {fields : String → Option Json} {name : String}

theorem required_eq {α : Type} {read : Json → Except Json.Error α} {v : Json} {a : α} (h : fields name = some v)
    (hr : read v = .ok a) : Json.required fields name read = .ok a := by
  simp [Json.required, h, hr]

theorem required_f64 {x : F64} (h : fields name = wire x.toJson) :
    Json.required fields name Json.readF64 =
      if x.isFinite = true then .ok x.norm else .error (.missingField name) := by
  unfold Json.required F64.toJson at *
  split_ifs at h ⊢ with hx
  · have hw : wire (.number (.float ⟨x, hx⟩)) = some (jsNumbers (.number (.float ⟨x, hx⟩))) := rfl
    simp only [h, hw, readF64_jsNumbers]
  · simp only [h, wire, Json.isNull, if_true]

theorem finite_of_ite {x y : F64} {e : Json.Error}
    (h : (if x.isFinite = true then Except.ok x.norm else .error e) = .ok y) : x.isFinite = true ∧ y = x.norm := by
  split_ifs at h with hx
  exact ⟨hx, (Except.ok.inj h).symm⟩

theorem defaulted_opt {α : Type} {f : α → Json} {read : Json → Except Json.Error α} {o : Option α}
    (h : fields name = (optValue f o |> wire)) (hn : ∀ a, (f a).isNull = false)
    (hj : ∀ a, (jsNumbers (f a)).isNull = false) (hr : ∀ a, o = some a → read (jsNumbers (f a)) = .ok a) :
    Json.defaulted fields name none (Json.readOption read) = .ok o := by
  cases o with
  | none => simp [Json.defaulted, h, optValue, wire, Json.isNull]
  | some a =>
    have hw : wire (f a) = some (jsNumbers (f a)) := by simp [wire, hn]
    have hread : Json.readOption read (jsNumbers (f a)) = some <$> read (jsNumbers (f a)) := by
      have := hj a
      cases hv : jsNumbers (f a) with
      | null => simp [hv, Json.isNull] at this
      | _ => rfl
    simp only [Json.defaulted, h, optValue, hw, hread, hr a rfl]
    rfl

theorem defaulted_f64 {o : Option F64} (h : fields name = wire (optValue F64.toJson o)) :
    Json.defaulted fields name none (Json.readOption Json.readF64) = .ok ((o.filter F64.isFinite).map F64.norm) := by
  cases o with
  | none => simp [Json.defaulted, h, optValue, wire, Json.isNull]
  | some x =>
    by_cases hx : x.isFinite = true
    · have hw : wire x.toJson = some (jsNumbers (.number (.float ⟨x, hx⟩))) := by
        simp [wire, F64.toJson, hx, Json.isNull]
      have hread : Json.readOption Json.readF64 (jsNumbers (.number (.float ⟨x, hx⟩))) = .ok (some x.norm) := by
        have hr := readF64_jsNumbers ⟨x, hx⟩
        unfold jsNumbers at hr ⊢
        split_ifs at hr ⊢
        · simp only [Json.readOption, hr]
          rfl
        · simp only [Json.readOption, hr]
          rfl
      simp [Json.defaulted, h, optValue, hw, hread, Option.filter, hx]
    · have hw : wire x.toJson = none := by simp [wire, F64.toJson, hx, Json.isNull]
      simp [Json.defaulted, h, optValue, hw, Option.filter, hx]

end Reads

/-! ## Attachments and reactions -/

def Attachment.norm (a : Attachment) : Attachment := { a with fileSize := a.fileSize.norm }

theorem Attachment.fromValue_eq_ok (a b : Attachment) :
    Attachment.fromValue (jsNumbers (.object a.toFields)) = .ok b ↔ a.fileSize.isFinite = true ∧ b = a.norm := by
  have hget : ∀ k, Fields.get (jsFields a.toFields) k = (Fields.get a.toFields k).bind wire :=
    get_jsFields (by simp [Attachment.toFields])
  have hid : Json.required (Fields.get (jsFields a.toFields)) "file_id" Json.readString = .ok a.fileId :=
    required_eq (hget _) rfl
  have hname : Json.required (Fields.get (jsFields a.toFields)) "file_name" Json.readString = .ok a.fileName :=
    required_eq (hget _) rfl
  have hsize := required_f64 (x := a.fileSize) (hget "file_size")
  have htype : Json.required (Fields.get (jsFields a.toFields)) "file_type" Json.readString = .ok a.fileType :=
    required_eq (hget _) rfl
  have hthumb : Json.defaulted (Fields.get (jsFields a.toFields)) "thumbnail" none (Json.readOption Json.readString) =
      .ok a.thumbnail :=
    defaulted_opt (hget _) (fun _ => rfl) (fun _ => by simp [Json.isNull]) (fun _ _ => by simp [Json.readString])
  simp only [Attachment.fromValue, jsNumbers, Json.struct, ok_bind, hid, hname, hsize, htype, hthumb]
  split_ifs with h
  · simp [h, Attachment.norm, eq_comm]
  · simp [h]

theorem Reaction.fromValue_eq_ok (r r' : Reaction) :
    Reaction.fromValue r.toValue = .ok r' ↔ r.at_.isFinite = true ∧ r' = r := by
  by_cases h : r.at_.isFinite = true
  · have hread : Reaction.fromValue r.toValue = .ok r := by
      simp [Reaction.fromValue, Reaction.toValue, Json.struct, Json.required, Fields.get, Json.readString, F64.toJson, h,
        Json.readF64, Json.Number.asF64, Json.readBool]
    simp [hread, h, eq_comm]
  · simp [Reaction.fromValue, Reaction.toValue, Json.struct, Json.required, Fields.get, Json.readString, F64.toJson, h,
      Json.readF64]

def FiniteTimes (list : List Reaction) : Prop := ∀ r ∈ list, r.at_.isFinite = true

theorem readList_reactions (list list' : List Reaction) :
    Json.readList Reaction.fromValue (listValue Reaction.toValue list) = .ok list' ↔
      FiniteTimes list ∧ list' = list := by
  have h : ∀ r r', (Reaction.fromValue ∘ Reaction.toValue) r = .ok r' ↔ r.at_.isFinite = true ∧ r' = id r :=
    Reaction.fromValue_eq_ok
  simpa [Json.readList, listValue, List.mapM_map, FiniteTimes] using Json.mapM_eq_ok h list list'

theorem readList_attachments (list list' : List Attachment) :
    Json.readList Attachment.fromValue (listValue (fun a => jsNumbers (.object a.toFields)) list) = .ok list' ↔
      (∀ a ∈ list, a.fileSize.isFinite = true) ∧ list' = list.map Attachment.norm := by
  have h : ∀ a b, (Attachment.fromValue ∘ fun a : Attachment => jsNumbers (.object a.toFields)) a = .ok b ↔
      a.fileSize.isFinite = true ∧ b = a.norm := Attachment.fromValue_eq_ok
  simpa [Json.readList, listValue, List.mapM_map] using Json.mapM_eq_ok h list list'

theorem readList_strings (list : List String) :
    Json.readList Json.readString (listValue (fun t => jsNumbers (.string t)) list) = .ok list := by
  have h : ∀ t t', (Json.readString ∘ fun t => jsNumbers (.string t)) t = .ok t' ↔ True ∧ t' = id t := by
    simp [Json.readString, eq_comm]
  simpa [Json.readList, listValue, List.mapM_map] using Json.mapM_eq_ok h list list

theorem readBytes_listValue (bytes : List UInt8) : readBytes (listValue byteValue bytes) = some bytes := by
  have h : ∀ b b', (Json.readU8 ∘ byteValue) b = .ok b' ↔ True ∧ b' = id b := by simp [eq_comm]
  have hm : (bytes.map byteValue).mapM Json.readU8 = .ok bytes := by
    simpa [List.mapM_map] using Json.mapM_eq_ok h bytes bytes
  simp [readBytes, Json.readList, listValue, hm, Except.toOption]

def Reactions.reread (list : List Reaction) : Option (List Reaction) := (Reactions.encode list).bind Reactions.decode

/-! ## CIDs -/

theorem parseU64_toString : parseU64 (toString cid.toNat) = some cid := by
  have hlist : (toString cid.toNat).toList = Nat.toDigits 10 cid.toNat := Nat.toList_repr
  have hdigit : ∀ c ∈ Nat.toDigits 10 cid.toNat, c.isDigit = true :=
    fun c hc => Nat.isDigit_of_mem_toDigits (by decide) (by decide) hc
  have hplus : dropPlus (Nat.toDigits 10 cid.toNat) = Nat.toDigits 10 cid.toNat := by
    unfold dropPlus
    split
    case h_1 rest he =>
      have := hdigit '+' (by simp [he])
      simp [Char.isDigit] at this
    case h_2 => rfl
  have hlt : cid.toNat < 2 ^ 64 := cid.toNat_lt
  have hall : (Nat.toDigits 10 cid.toNat).all Char.isDigit = true := List.all_eq_true.mpr hdigit
  simp only [parseU64, hlist, hplus, hall, Nat.ofDigitChars_ten_toDigits, hlt, UInt64.ofNat_toNat]
  simp [Nat.toDigits_ne_nil]

variable {field : String} {object : Fields}

theorem cidToString_cidValue {cid : Cid} (h : Fields.get object field = some (cidValue cid)) :
    cidToString object field = .ok (Fields.insert field (.string (toString cid.toNat)) object) := by
  simp [cidToString, h, cidValue]

theorem cidToString_null (h : Fields.get object field = some .null) :
    cidToString object field = .ok object := by
  simp [cidToString, h]

theorem cidFromString_none (h : Fields.get object field = none) :
    cidFromString object field = .ok object := by
  simp [cidFromString, h]

theorem cidFromString_toString {cid : Cid} (h : Fields.get object field = some (.string (toString cid.toNat))) :
    cidFromString object field = .ok (Fields.insert field (cidValue cid) object) := by
  simp only [cidFromString, h, parseU64_toString]

/-! ## Messages -/

namespace ConversationMessage

variable (m : ConversationMessage)

theorem nodup_toFields : (m.toFields.map Prod.fst).Nodup := by
  simp [toFields]

def cidFields (m : ConversationMessage) : Fields :=
  Fields.remove "reactions" (Fields.insert "recipientCid" (.string (toString m.recipientCid.toNat))
    (Fields.insert "senderCid" (.string (toString m.senderCid.toNat)) m.toFields))

def storedFields (m : ConversationMessage) : Fields :=
  match m.reactions.bind Reactions.encode with
  | some bytes => Fields.insert "reactions" (listValue byteValue bytes) m.cidFields
  | none => m.cidFields

theorem nodup_storedFields : (m.storedFields.map Prod.fst).Nodup := by
  have h : (m.cidFields.map Prod.fst).Nodup :=
    Fields.nodup_remove (Fields.nodup_insert (Fields.nodup_insert m.nodup_toFields))
  unfold storedFields
  split
  · exact Fields.nodup_insert h
  · exact h

theorem storedMessage_eq_ok (fields : Fields) :
    storedMessage m.toFields = .ok fields ↔
      (∀ list, m.reactions = some list → FiniteTimes list) ∧ fields = m.storedFields := by
  have hs := cidToString_cidValue (show Fields.get m.toFields "senderCid" = some (cidValue m.senderCid) from rfl)
  have hr := cidToString_cidValue (show Fields.get (Fields.insert "senderCid" (.string (toString m.senderCid.toNat))
    m.toFields) "recipientCid" = some (cidValue m.recipientCid) by rw [Fields.get_insert, if_neg (by decide)]; rfl)
  have hget : Fields.get (Fields.insert "recipientCid" (.string (toString m.recipientCid.toNat))
      (Fields.insert "senderCid" (.string (toString m.senderCid.toNat)) m.toFields)) "reactions" =
      some (optValue (listValue Reaction.toValue) m.reactions) := by
    rw [Fields.get_insert, if_neg (by decide), Fields.get_insert, if_neg (by decide)]
    rfl
  simp only [storedMessage, hs, hr, ok_bind, storedReactions, hget]
  cases hm : m.reactions with
  | none => simp [optValue, storedFields, hm, cidFields, eq_comm]
  | some list =>
    simp only [optValue, listValue, Option.some.injEq, forall_eq']
    cases hlist : Json.readList Reaction.fromValue (.array (list.map Reaction.toValue)) with
    | error e =>
      have hfin : ¬ FiniteTimes list := fun h => by
        have := (readList_reactions list list).mpr ⟨h, rfl⟩
        simp [listValue, hlist] at this
      simp [jsonErr, hfin]
    | ok list' =>
      obtain ⟨hfin, rfl⟩ := (readList_reactions list list').mp hlist
      simp only [jsonErr, ok_bind, hfin, true_and]
      cases henc : Reactions.encode list' with
      | none => simp [storedFields, hm, henc, cidFields, eq_comm]
      | some bytes => simp [storedFields, hm, henc, cidFields, listValue, eq_comm]

def rereadReactions (m : ConversationMessage) : Option (List Reaction) := m.reactions.bind Reactions.reread

theorem get_cidFields (key : String) :
    Fields.get m.cidFields key = if key = "reactions" then none
      else if key = "recipientCid" then some (.string (toString m.recipientCid.toNat))
      else if key = "senderCid" then some (.string (toString m.senderCid.toNat))
      else Fields.get m.toFields key := by
  simp only [cidFields, Fields.get_remove, Fields.get_insert, eq_comm]

theorem get_storedFields (key : String) :
    Fields.get m.storedFields key = if key = "reactions" then (m.reactions.bind Reactions.encode).map (listValue byteValue)
      else if key = "recipientCid" then some (.string (toString m.recipientCid.toNat))
      else if key = "senderCid" then some (.string (toString m.senderCid.toNat))
      else Fields.get m.toFields key := by
  unfold storedFields
  split
  case h_1 bytes hb =>
    rw [Fields.get_insert, get_cidFields, hb]
    by_cases h : key = "reactions"
    · simp [h]
    · simp [h, Ne.symm h]
  case h_2 hb =>
    rw [get_cidFields, hb]
    rfl

theorem canonicalMessage_storedFields :
    ∃ fields, canonicalMessage (jsFields m.storedFields) = .ok fields ∧ ∀ key, Fields.get fields key =
      if key = "reactions" then m.rereadReactions.map (listValue Reaction.toValue)
      else (Fields.get m.toFields key).bind wire := by
  have hget : ∀ key, Fields.get (jsFields m.storedFields) key = (Fields.get m.storedFields key).bind wire :=
    get_jsFields m.nodup_storedFields
  have hs := cidFromString_toString (show Fields.get (jsFields m.storedFields) "senderCid" =
    some (.string (toString m.senderCid.toNat)) by rw [hget, get_storedFields]; simp)
  have hr := cidFromString_toString (show Fields.get (Fields.insert "senderCid" (cidValue m.senderCid)
    (jsFields m.storedFields)) "recipientCid" = some (.string (toString m.recipientCid.toNat)) by
      rw [Fields.get_insert, if_neg (by decide), hget, get_storedFields]; simp)
  simp only [canonicalMessage, hs, hr, ok_bind, pure_eq_ok]
  refine ⟨_, rfl, fun key => ?_⟩
  generalize hbase : Fields.insert "recipientCid" (cidValue m.recipientCid) (Fields.insert "senderCid"
    (cidValue m.senderCid) (jsFields m.storedFields)) = base
  have hbytes : Fields.get base "reactions" = (m.reactions.bind Reactions.encode).map (listValue byteValue) := by
    rw [← hbase, Fields.get_insert, if_neg (by decide), Fields.get_insert, if_neg (by decide), hget, get_storedFields,
      if_pos rfl]
    cases m.reactions.bind Reactions.encode with
    | none => rfl
    | some bytes => simp [wire_listValue]
  have hother : key ≠ "reactions" → Fields.get base key = (Fields.get m.toFields key).bind wire := by
    intro hkey
    rw [← hbase, Fields.get_insert, Fields.get_insert, hget, get_storedFields, if_neg hkey]
    by_cases h1 : key = "recipientCid"
    · subst h1
      rw [if_pos rfl]
      exact (wire_cidValue _).symm
    by_cases h2 : key = "senderCid"
    · subst h2
      rw [if_neg (by decide), if_pos rfl]
      exact (wire_cidValue _).symm
    rw [if_neg (Ne.symm h1), if_neg (Ne.symm h2), if_neg h1, if_neg h2]
  have hreread : m.rereadReactions = (m.reactions.bind Reactions.encode).bind Reactions.decode := by
    rw [rereadReactions, Option.bind_assoc]
    rfl
  unfold canonicalReactions
  rw [hbytes, hreread]
  by_cases hkey : key = "reactions"
  · subst hkey
    rw [if_pos rfl]
    cases henc : m.reactions.bind Reactions.encode with
    | none => simpa [henc] using hbytes
    | some bytes =>
      simp only [Option.map_some, readBytes_listValue, Option.bind_some]
      cases Reactions.decode bytes with
      | none => simp [Fields.get_remove]
      | some list => simp [Fields.get_insert]
  · rw [if_neg hkey, ← hother hkey]
    cases henc : m.reactions.bind Reactions.encode with
    | none => simp
    | some bytes =>
      simp only [Option.map_some, readBytes_listValue, Option.bind_some]
      cases Reactions.decode bytes with
      | none => simp [Fields.get_remove, Ne.symm hkey]
      | some list => simp [Fields.get_insert, Fields.get_remove, Ne.symm hkey]

/-- The numbers the stored form cannot do without are finite. -/
structure Readable (m : ConversationMessage) : Prop where
  timestamp : m.timestamp.isFinite = true
  index : m.index.isFinite = true
  attachments : ∀ list, m.attachments = some list → ∀ a ∈ list, a.fileSize.isFinite = true
  reactions : ∀ list, m.rereadReactions = some list → FiniteTimes list

def norm (m : ConversationMessage) : ConversationMessage :=
  { m with
    timestamp := m.timestamp.norm
    index := m.index.norm
    editedAt := (m.editedAt.filter F64.isFinite).map F64.norm
    reactions := m.rereadReactions
    attachments := m.attachments.map (List.map Attachment.norm)
    fileSize := (m.fileSize.filter F64.isFinite).map F64.norm
    transferProgress := (m.transferProgress.filter F64.isFinite).map F64.norm }

theorem attachments_eq_ok {fields : Fields} (o : Option (List Attachment))
    (h : Fields.get fields "attachments" = (Fields.get m.toFields "attachments").bind wire) :
    Json.defaulted (Fields.get fields) "attachments" none (Json.readOption (Json.readList Attachment.fromValue)) =
      .ok o ↔ (∀ list, m.attachments = some list → ∀ a ∈ list, a.fileSize.isFinite = true) ∧
        o = m.attachments.map (List.map Attachment.norm) := by
  refine Json.defaulted_list_eq_ok (h.trans ?_) readList_attachments o
  rw [show (Fields.get m.toFields "attachments").bind wire =
    wire (optValue (listValue fun a => .object a.toFields) m.attachments) from rfl]
  cases m.attachments with
  | none => rfl
  | some list => exact wire_listValue _ list

theorem reactions_eq_ok {fields : Fields} (o : Option (List Reaction))
    (h : Fields.get fields "reactions" = m.rereadReactions.map (listValue Reaction.toValue)) :
    Json.defaulted (Fields.get fields) "reactions" none (Json.readOption (Json.readList Reaction.fromValue)) = .ok o ↔
      (∀ list, m.rereadReactions = some list → FiniteTimes list) ∧ o = m.rereadReactions := by
  have hid : m.rereadReactions.map (fun list => list) = m.rereadReactions := Option.map_id'
  rw [Json.defaulted_list_eq_ok h readList_reactions o, hid]

theorem fromValue_eq_ok (m q : ConversationMessage) {fields : Fields} (hfields : ∀ key, Fields.get fields key =
    if key = "reactions" then m.rereadReactions.map (listValue Reaction.toValue)
    else (Fields.get m.toFields key).bind wire) :
    fromValue (.object fields) = .ok q ↔ m.Readable ∧ q = m.norm := by
  have hget : ∀ key, key ≠ "reactions" → Fields.get fields key = (Fields.get m.toFields key).bind wire :=
    fun key h => by rw [hfields, if_neg h]
  have string : ∀ key t, key ≠ "reactions" → (Fields.get m.toFields key).bind wire = some (.string t) →
      Json.required (Fields.get fields) key Json.readString = .ok t :=
    fun key t hkey h => required_eq ((hget key hkey).trans h) rfl
  have cid : ∀ key c, key ≠ "reactions" → (Fields.get m.toFields key).bind wire = some (cidValue c) →
      Json.required (Fields.get fields) key Json.readU64 = .ok c :=
    fun key c hkey h => required_eq ((hget key hkey).trans h) rfl
  have optString : ∀ key o, key ≠ "reactions" →
      (Fields.get m.toFields key).bind wire = wire (optValue .string o) →
      Json.defaulted (Fields.get fields) key none (Json.readOption Json.readString) = .ok o :=
    fun key o hkey h => defaulted_opt ((hget key hkey).trans h) (fun _ => rfl) (fun _ => by simp [Json.isNull])
      (fun _ _ => by simp [Json.readString])
  have hstatus : Json.required (Fields.get fields) "status" (Json.readVariant MessageStatus.variants) = .ok m.status :=
    required_eq ((hget _ (by decide)).trans (wire_variantValue _ _)) (readVariant_status _)
  have hmentions : Json.defaulted (Fields.get fields) "mentions" none (Json.readOption (Json.readList Json.readString)) =
      .ok m.mentions :=
    defaulted_opt (hget _ (by decide)) (fun _ => rfl) (fun _ => by rw [jsNumbers_listValue]; rfl)
      (fun _ _ => by rw [jsNumbers_listValue, readList_strings])
  have htype : Json.defaulted (Fields.get fields) "message_type" .text (Json.readVariant MessageType.variants) =
      .ok m.messageType := by
    rw [Json.defaulted, hget _ (by decide)]
    show Json.readVariant MessageType.variants (variantValue MessageType.variants m.messageType) = _
    simp
  have hmode : Json.defaulted (Fields.get fields) "transfer_mode" none
      (Json.readOption (Json.readVariant TransferMode.variants)) = .ok m.transferMode :=
    defaulted_opt (hget _ (by decide)) (fun _ => rfl) (fun _ => by simp [variantValue, Json.isNull])
      (fun a _ => by cases a <;> rfl)
  have hstate : Json.defaulted (Fields.get fields) "transfer_state" none
      (Json.readOption (Json.readVariant TransferState.variants)) = .ok m.transferState :=
    defaulted_opt (hget _ (by decide)) (fun _ => rfl) (fun _ => by simp [variantValue, Json.isNull])
      (fun a _ => by cases a <;> rfl)
  have htimestamp := required_f64 (x := m.timestamp) (hget "timestamp" (by decide))
  have hindex := required_f64 (x := m.index) (hget "index" (by decide))
  have hedited := defaulted_f64 (o := m.editedAt) (hget "edited_at" (by decide))
  have hsize := defaulted_f64 (o := m.fileSize) (hget "file_size" (by decide))
  have hprogress := defaulted_f64 (o := m.transferProgress) (hget "transfer_progress" (by decide))
  have hatt := fun o => m.attachments_eq_ok o (hget "attachments" (by decide))
  have hreact := fun o => m.reactions_eq_ok o ((hfields "reactions").trans (if_pos rfl))
  simp only [fromValue, Json.struct, ok_bind, string "id" m.id (by decide) rfl, string "content" m.content (by decide) rfl,
    cid "senderCid" m.senderCid (by decide) rfl, cid "recipientCid" m.recipientCid (by decide) rfl, htimestamp, hindex,
    hstatus, optString "error" m.error (by decide) rfl, optString "replyTo" m.replyTo (by decide) rfl, hedited,
    hmentions, htype, optString "document_id" m.documentId (by decide) rfl,
    optString "document_title" m.documentTitle (by decide) rfl, optString "transfer_id" m.transferId (by decide) rfl,
    optString "file_name" m.fileName (by decide) rfl, hsize, optString "file_type" m.fileType (by decide) rfl,
    optString "file_thumbnail" m.fileThumbnail (by decide) rfl, hmode, hstate, hprogress,
    optString "virtual_path" m.virtualPath (by decide) rfl]
  constructor
  · intro h
    obtain ⟨t, ht, h⟩ := bind_eq_ok.mp h
    obtain ⟨i, hi, h⟩ := bind_eq_ok.mp h
    obtain ⟨r, hr, h⟩ := bind_eq_ok.mp h
    obtain ⟨a, ha, h⟩ := bind_eq_ok.mp h
    cases h
    obtain ⟨hft, rfl⟩ := finite_of_ite ht
    obtain ⟨hfi, rfl⟩ := finite_of_ite hi
    obtain ⟨hfr, rfl⟩ := (hreact r).mp hr
    obtain ⟨hfa, rfl⟩ := (hatt a).mp ha
    exact ⟨⟨hft, hfi, hfa, hfr⟩, rfl⟩
  · rintro ⟨⟨hft, hfi, hfa, hfr⟩, rfl⟩
    simp only [hft, hfi, if_true, ok_bind, (hreact _).mpr ⟨hfr, rfl⟩, (hatt _).mpr ⟨hfa, rfl⟩]
    rfl

end ConversationMessage

/-! ## Pages -/

namespace PageTimestamps

def norm (t : PageTimestamps) : PageTimestamps := ⟨t.minTimestamp.norm, t.maxTimestamp.norm⟩

theorem fromValue_eq_ok (t u : PageTimestamps) :
    PageTimestamps.fromValue (jsNumbers (.object t.toFields)) = .ok u ↔
      t.minTimestamp.isFinite = true ∧ t.maxTimestamp.isFinite = true ∧ u = t.norm := by
  have hget : ∀ k, Fields.get (jsFields t.toFields) k = (Fields.get t.toFields k).bind wire :=
    get_jsFields (by simp [PageTimestamps.toFields])
  have hmin := required_f64 (x := t.minTimestamp) (hget "minTimestamp")
  have hmax := required_f64 (x := t.maxTimestamp) (hget "maxTimestamp")
  simp only [PageTimestamps.fromValue, jsNumbers, Json.struct, ok_bind, hmin, hmax]
  by_cases h₁ : t.minTimestamp.isFinite = true
  · by_cases h₂ : t.maxTimestamp.isFinite = true
    · simp [h₁, h₂, norm, eq_comm (a := u)]
    · simp [h₁, h₂]
  · simp [h₁]

end PageTimestamps

namespace ConversationPage

structure Readable (p : ConversationPage) : Prop where
  minTimestamp : p.pageTimestamps.minTimestamp.isFinite = true
  maxTimestamp : p.pageTimestamps.maxTimestamp.isFinite = true
  messages : ∀ m ∈ p.messages, m.Readable

def norm (p : ConversationPage) : ConversationPage :=
  { p with messages := p.messages.map ConversationMessage.norm, pageTimestamps := p.pageTimestamps.norm }

def FiniteReactions (p : ConversationPage) : Prop :=
  ∀ m ∈ p.messages, ∀ list, m.reactions = some list → FiniteTimes list

def storedFields (p : ConversationPage) : Fields :=
  Fields.insert "messages" (listValue (fun m => .object m.storedFields) p.messages)
    (Fields.insert "peerCid" (.string (toString p.peerCid.toNat)) p.toFields)

end ConversationPage

theorem encodePage_eq_ok (p : ConversationPage) (b : Bytes) :
    encodePage p = .ok b ↔ p.FiniteReactions ∧ b = .json (.object (jsFields p.storedFields)) := by
  have hp := cidToString_cidValue (show Fields.get p.toFields "peerCid" = some (cidValue p.peerCid) from rfl)
  have hget : Fields.get (Fields.insert "peerCid" (.string (toString p.peerCid.toNat)) p.toFields) "messages" =
      some (.array (p.messages.map fun m => .object m.toFields)) := by
    rw [Fields.get_insert, if_neg (by decide)]
    rfl
  have hmap : ∀ m v, (changeMessage storedMessage ∘ fun m : ConversationMessage => Json.object m.toFields) m = .ok v ↔
      (∀ list, m.reactions = some list → FiniteTimes list) ∧ v = .object m.storedFields := by
    intro m v
    simp only [Function.comp_apply, changeMessage, asObject, ok_bind, bind_eq_ok, m.storedMessage_eq_ok, pure_eq_ok,
      Except.ok.injEq]
    constructor
    · rintro ⟨fields, ⟨hf, rfl⟩, rfl⟩
      exact ⟨hf, rfl⟩
    · rintro ⟨hf, rfl⟩
      exact ⟨_, ⟨hf, rfl⟩, rfl⟩
  have hlist := Json.mapM_eq_ok hmap p.messages
  simp only [encodePage, hp, ok_bind, mapMessages, hget, bind_eq_ok, pure_eq_ok, Except.ok.injEq, List.mapM_map, hlist,
    jsNumbers]
  constructor
  · rintro ⟨object, ⟨changed, ⟨hf, rfl⟩, rfl⟩, rfl⟩
    exact ⟨hf, rfl⟩
  · rintro ⟨hf, rfl⟩
    exact ⟨_, ⟨_, ⟨hf, rfl⟩, rfl⟩, rfl⟩

theorem decodePage_encodePage {p : ConversationPage} {b : Bytes} (h : encodePage p = .ok b) (q : ConversationPage) :
    decodePage b = .ok q ↔ p.Readable ∧ q = p.norm := by
  obtain ⟨-, rfl⟩ := (encodePage_eq_ok p b).mp h
  have hnd : (p.storedFields.map Prod.fst).Nodup :=
    Fields.nodup_insert (Fields.nodup_insert (by simp [ConversationPage.toFields]))
  have hget : ∀ k, Fields.get (jsFields p.storedFields) k = (Fields.get p.storedFields k).bind wire := get_jsFields hnd
  have hcid : cidFromString (jsFields p.storedFields) "peerCid" =
      .ok (Fields.insert "peerCid" (cidValue p.peerCid) (jsFields p.storedFields)) := by
    refine cidFromString_toString ?_
    rw [hget, ConversationPage.storedFields, Fields.get_insert, if_neg (by decide), Fields.get_insert, if_pos rfl]
    exact wire_string _
  have hmsgs : Fields.get (Fields.insert "peerCid" (cidValue p.peerCid) (jsFields p.storedFields)) "messages" =
      some (.array (p.messages.map fun m => .object (jsFields m.storedFields))) := by
    rw [Fields.get_insert, if_neg (by decide), hget, ConversationPage.storedFields, Fields.get_insert, if_pos rfl,
      Option.bind_some, wire_listValue]
    simp [listValue, jsNumbers]
  -- what each stored message becomes before it is read
  choose canon hcanon hfields using fun m : ConversationMessage => m.canonicalMessage_storedFields
  have hchange : ∀ m v, (changeMessage canonicalMessage ∘ fun m : ConversationMessage =>
      Json.object (jsFields m.storedFields)) m = .ok v ↔ True ∧ v = .object (canon m) := by
    intro m v
    simp [changeMessage, asObject, hcanon, eq_comm (a := v)]
  have hmap : p.messages.mapM (changeMessage canonicalMessage ∘ fun m : ConversationMessage =>
      Json.object (jsFields m.storedFields)) = .ok (p.messages.map fun m => .object (canon m)) :=
    (Json.mapM_eq_ok hchange p.messages _).mpr ⟨fun _ _ => trivial, rfl⟩
  have hread : ∀ m q, (ConversationMessage.fromValue ∘ fun m => Json.object (canon m)) m = .ok q ↔
      m.Readable ∧ q = m.norm := fun m q => m.fromValue_eq_ok q (hfields m)
  have hreads := Json.mapM_eq_ok hread p.messages
  simp only [decodePage, fromSlice, asObject, ok_bind, hcid, mapMessages, hmsgs, List.mapM_map, hmap, pure_eq_ok]
  generalize hobj : Fields.insert "messages" (.array (p.messages.map fun m => .object (canon m)))
    (Fields.insert "peerCid" (cidValue p.peerCid) (jsFields p.storedFields)) = object
  have hpeer : Json.required (Fields.get object) "peerCid" Json.readU64 = .ok p.peerCid :=
    required_eq (by rw [← hobj, Fields.get_insert, if_neg (by decide), Fields.get_insert, if_pos rfl]) rfl
  have hother : ∀ key, key ≠ "messages" → key ≠ "peerCid" →
      Fields.get object key = (Fields.get p.toFields key).bind wire := by
    intro key h₁ h₂
    rw [← hobj, Fields.get_insert, if_neg (Ne.symm h₁), Fields.get_insert, if_neg (Ne.symm h₂), hget,
      ConversationPage.storedFields, Fields.get_insert, if_neg (Ne.symm h₁), Fields.get_insert, if_neg (Ne.symm h₂)]
  have hnumber : Json.required (Fields.get object) "pageNumber" Json.readU32 = .ok p.pageNumber :=
    required_eq ((hother _ (by decide) (by decide)).trans (wire_u32Value _)) (readU32_u32Value _)
  have hmessages : Json.required (Fields.get object) "messages" (Json.readList ConversationMessage.fromValue) =
      p.messages.mapM (ConversationMessage.fromValue ∘ fun m => Json.object (canon m)) := by
    rw [Json.required, ← hobj, Fields.get_insert, if_pos rfl]
    simp [Json.readList, List.mapM_map]
  have htimes : Json.required (Fields.get object) "pageTimestamps" PageTimestamps.fromValue =
      PageTimestamps.fromValue (jsNumbers (.object p.pageTimestamps.toFields)) := by
    rw [Json.required, hother _ (by decide) (by decide)]
    rfl
  simp only [ConversationPage.fromValue, Json.struct, ok_bind, hpeer, hnumber, hmessages, htimes]
  constructor
  · intro hq
    cases hr : p.messages.mapM (ConversationMessage.fromValue ∘ fun m => Json.object (canon m)) with
    | error e => simp [hr, jsonErr] at hq
    | ok messages =>
      cases ht : PageTimestamps.fromValue (jsNumbers (.object p.pageTimestamps.toFields)) with
      | error e => simp [hr, ht, jsonErr] at hq
      | ok times =>
        simp only [hr, ht, ok_bind, pure_eq_ok, jsonErr, Except.ok.injEq] at hq
        obtain ⟨hm, rfl⟩ := (hreads messages).mp hr
        obtain ⟨h₁, h₂, rfl⟩ := (PageTimestamps.fromValue_eq_ok _ _).mp ht
        exact ⟨⟨h₁, h₂, hm⟩, hq.symm⟩
  · rintro ⟨⟨h₁, h₂, hm⟩, rfl⟩
    simp only [(hreads _).mpr ⟨hm, rfl⟩, (PageTimestamps.fromValue_eq_ok _ _).mpr ⟨h₁, h₂, rfl⟩, ok_bind, pure_eq_ok,
      jsonErr]
    rfl

/-! ## Metadata -/

namespace ConversationMetadata

structure Readable (m : ConversationMetadata) : Prop where
  totalMessageCount : m.totalMessageCount.isFinite = true
  oldestMessageTimestamp : m.oldestMessageTimestamp.isFinite = true
  newestMessageTimestamp : m.newestMessageTimestamp.isFinite = true
  unreadCount : m.unreadCount.isFinite = true
  lastMessageIndex : m.lastMessageIndex.isFinite = true
  lastUpdated : m.lastUpdated.isFinite = true

def norm (m : ConversationMetadata) : ConversationMetadata :=
  { m with
    totalMessageCount := m.totalMessageCount.norm
    oldestMessageTimestamp := m.oldestMessageTimestamp.norm
    newestMessageTimestamp := m.newestMessageTimestamp.norm
    unreadCount := m.unreadCount.norm
    lastMessageIndex := m.lastMessageIndex.norm
    lastUpdated := m.lastUpdated.norm }

def storedFields (m : ConversationMetadata) : Fields :=
  match m.ownerCid with
  | some owner => Fields.insert "ownerCid" (.string (toString owner.toNat))
      (Fields.insert "peerCid" (.string (toString m.peerCid.toNat)) m.toFields)
  | none => Fields.insert "peerCid" (.string (toString m.peerCid.toNat)) m.toFields

end ConversationMetadata

theorem encodeMetadata_eq (m : ConversationMetadata) :
    encodeMetadata m = .ok (.json (.object (jsFields m.storedFields))) := by
  have hp := cidToString_cidValue (show Fields.get m.toFields "peerCid" = some (cidValue m.peerCid) from rfl)
  have hget : Fields.get (Fields.insert "peerCid" (.string (toString m.peerCid.toNat)) m.toFields) "ownerCid" =
      some (optValue cidValue m.ownerCid) := by
    rw [Fields.get_insert, if_neg (by decide)]
    rfl
  cases ho : m.ownerCid with
  | none =>
    rw [ho] at hget
    simp only [encodeMetadata, hp, ok_bind, cidToString_null hget, pure_eq_ok, jsNumbers,
      ConversationMetadata.storedFields, ho]
  | some owner =>
    rw [ho] at hget
    simp only [encodeMetadata, hp, ok_bind, cidToString_cidValue hget, pure_eq_ok, jsNumbers,
      ConversationMetadata.storedFields, ho]

namespace ConversationMetadata

theorem nodup_storedFields (m : ConversationMetadata) : (m.storedFields.map Prod.fst).Nodup := by
  have h : (m.toFields.map Prod.fst).Nodup := by simp [toFields]
  unfold storedFields
  split
  · exact Fields.nodup_insert (Fields.nodup_insert h)
  · exact Fields.nodup_insert h

theorem get_storedFields (m : ConversationMetadata) (key : String) :
    Fields.get m.storedFields key = if key = "peerCid" then some (.string (toString m.peerCid.toNat))
      else if key = "ownerCid" then some (optValue (fun owner : Cid => .string (toString owner.toNat)) m.ownerCid)
      else Fields.get m.toFields key := by
  unfold storedFields
  by_cases h₁ : key = "peerCid"
  · subst h₁
    cases m.ownerCid with
    | none => simp only [Fields.get_insert, if_true]
    | some owner => simp only [Fields.get_insert, if_true, String.reduceEq, if_false]
  by_cases h₂ : key = "ownerCid"
  · subst h₂
    cases ho : m.ownerCid with
    | none =>
      simp only [Fields.get_insert, String.reduceEq, if_false, if_true]
      simp [toFields, Fields.get, ho, optValue]
    | some owner => simp only [Fields.get_insert, if_true, String.reduceEq, if_false, optValue]
  · cases m.ownerCid with
    | none => simp only [Fields.get_insert, Ne.symm h₁, if_false, h₁, h₂]
    | some owner => simp only [Fields.get_insert, Ne.symm h₁, Ne.symm h₂, if_false, h₁, h₂]

theorem canonical_storedFields (m : ConversationMetadata) :
    ∃ object, cidFromString (jsFields m.storedFields) "peerCid" >>= (cidFromString · "ownerCid") = .ok object ∧
      ∀ key, Fields.get object key = (Fields.get m.toFields key).bind wire := by
  have hget : ∀ key, Fields.get (jsFields m.storedFields) key = (Fields.get m.storedFields key).bind wire :=
    get_jsFields m.nodup_storedFields
  have hp := cidFromString_toString (show Fields.get (jsFields m.storedFields) "peerCid" =
    some (.string (toString m.peerCid.toNat)) by rw [hget, get_storedFields, if_pos rfl]; exact wire_string _)
  have hpeer : some (cidValue m.peerCid) = (Fields.get m.toFields "peerCid").bind wire := (wire_cidValue _).symm
  have hown : Fields.get (Fields.insert "peerCid" (cidValue m.peerCid) (jsFields m.storedFields)) "ownerCid" =
      wire (optValue (fun owner : Cid => .string (toString owner.toNat)) m.ownerCid) := by
    rw [Fields.get_insert, if_neg (by decide), hget, get_storedFields, if_neg (by decide), if_pos rfl]
    rfl
  have hother : ∀ key, key ≠ "ownerCid" → Fields.get (Fields.insert "peerCid" (cidValue m.peerCid)
      (jsFields m.storedFields)) key = (Fields.get m.toFields key).bind wire := by
    intro key h
    rw [Fields.get_insert]
    by_cases h₁ : key = "peerCid"
    · subst h₁
      rw [if_pos rfl, hpeer]
    · rw [if_neg (Ne.symm h₁), hget, get_storedFields, if_neg h₁, if_neg h]
  simp only [hp, ok_bind]
  cases ho : m.ownerCid with
  | none =>
    rw [ho] at hown
    have hnone : wire (optValue (fun owner : Cid => .string (toString owner.toNat)) none) = none := rfl
    refine ⟨_, cidFromString_none (hown.trans hnone), fun key => ?_⟩
    by_cases h : key = "ownerCid"
    · subst h
      rw [hown, hnone]
      simp [toFields, Fields.get, ho, optValue, wire, Json.isNull]
    · exact hother key h
  | some owner =>
    rw [ho] at hown
    refine ⟨_, cidFromString_toString (hown.trans (wire_string _)), fun key => ?_⟩
    rw [Fields.get_insert]
    by_cases h : key = "ownerCid"
    · subst h
      rw [if_pos rfl]
      simp [toFields, Fields.get, ho, optValue]
    · rw [if_neg (Ne.symm h), hother key h]

theorem fromValue_eq_ok (m q : ConversationMetadata) (hget : ∀ key, Fields.get object key = (Fields.get m.toFields key).bind wire) :
    fromValue (.object object) = .ok q ↔ m.Readable ∧ q = m.norm := by
  have hpeer : Json.required (Fields.get object) "peerCid" Json.readU64 = .ok m.peerCid :=
    required_eq ((hget _).trans (wire_cidValue _)) rfl
  have howner : Json.defaulted (Fields.get object) "ownerCid" none (Json.readOption Json.readU64) = .ok m.ownerCid :=
    defaulted_opt (hget _) (fun _ => rfl) (fun _ => by rw [jsNumbers_cidValue]; rfl) (fun _ _ => by simp)
  have hname : Json.defaulted (Fields.get object) "peerUsername" none (Json.readOption Json.readString) =
      .ok m.peerUsername :=
    defaulted_opt (hget _) (fun _ => rfl) (fun _ => by simp [Json.isNull]) (fun _ _ => by simp [Json.readString])
  have hlatest : Json.required (Fields.get object) "latestPage" Json.readU32 = .ok m.latestPage :=
    required_eq ((hget _).trans (wire_u32Value _)) (readU32_u32Value _)
  have hper : Json.required (Fields.get object) "messagesPerPage" Json.readU32 = .ok m.messagesPerPage :=
    required_eq ((hget _).trans (wire_u32Value _)) (readU32_u32Value _)
  have htotal := required_f64 (x := m.totalMessageCount) (hget "totalMessageCount")
  have holdest := required_f64 (x := m.oldestMessageTimestamp) (hget "oldestMessageTimestamp")
  have hnewest := required_f64 (x := m.newestMessageTimestamp) (hget "newestMessageTimestamp")
  have hunread := required_f64 (x := m.unreadCount) (hget "unreadCount")
  have hindex := required_f64 (x := m.lastMessageIndex) (hget "lastMessageIndex")
  have hupdated := required_f64 (x := m.lastUpdated) (hget "lastUpdated")
  simp only [fromValue, Json.struct, ok_bind, hpeer, howner, hname, hlatest, hper, htotal, holdest, hnewest, hunread,
    hindex, hupdated]
  constructor
  · intro h
    obtain ⟨_, h₁, h⟩ := bind_eq_ok.mp h
    obtain ⟨_, h₂, h⟩ := bind_eq_ok.mp h
    obtain ⟨_, h₃, h⟩ := bind_eq_ok.mp h
    obtain ⟨_, h₄, h⟩ := bind_eq_ok.mp h
    obtain ⟨_, h₅, h⟩ := bind_eq_ok.mp h
    obtain ⟨_, h₆, h⟩ := bind_eq_ok.mp h
    obtain ⟨f₁, rfl⟩ := finite_of_ite h₁
    obtain ⟨f₂, rfl⟩ := finite_of_ite h₂
    obtain ⟨f₃, rfl⟩ := finite_of_ite h₃
    obtain ⟨f₄, rfl⟩ := finite_of_ite h₄
    obtain ⟨f₅, rfl⟩ := finite_of_ite h₅
    obtain ⟨f₆, rfl⟩ := finite_of_ite h₆
    cases h
    exact ⟨⟨f₁, f₂, f₃, f₄, f₅, f₆⟩, rfl⟩
  · rintro ⟨⟨h₁, h₂, h₃, h₄, h₅, h₆⟩, rfl⟩
    simp only [h₁, h₂, h₃, h₄, h₅, h₆, if_true, ok_bind, pure_eq_ok]
    rfl

end ConversationMetadata

theorem decodeMetadata_encodeMetadata {m : ConversationMetadata} {b : Bytes} (h : encodeMetadata m = .ok b)
    (q : ConversationMetadata) : decodeMetadata b = .ok q ↔ m.Readable ∧ q = m.norm := by
  obtain rfl : Bytes.json (.object (jsFields m.storedFields)) = b := by simpa [encodeMetadata_eq] using h
  obtain ⟨object, hobj, hget⟩ := m.canonical_storedFields
  obtain ⟨o₁, h₁, h₂⟩ := bind_eq_ok.mp hobj
  rw [← m.fromValue_eq_ok q hget]
  simp only [decodeMetadata, fromSlice, asObject, ok_bind, h₁, h₂]
  cases ConversationMetadata.fromValue (.object object) with
  | error e => simp [jsonErr]
  | ok r => simp [jsonErr]

end CitadelAgent.Conversations
