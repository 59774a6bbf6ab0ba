import CitadelAgent.Ihttp.Codec

/-!
# Internal HTTP: what one side writes the other reads

The frames of `citadel-ihttp-types/src/lib.rs` as their derived `Serialize` writes them: a struct is a map of its fields,
a unit variant its name, a struct variant a map of its name to its fields, `None` is null, and every head is minimal.

* `valid_size` : a valid frame is written in no more than a frame may take, whatever it carries;
* `Derived` : a library that writes frames so and reads them back;
* `frames_survive` : what passes `validate` is encoded, read back and carried in an envelope as it is.
-/

namespace CitadelAgent.Ihttp.Wire

open Conversations.Cbor (Value minimal utf8 head Width MAX_DEPTH)
open Requests (Bytes ENVELOPE_KIND)
open Result

/-! ## Shapes -/

def struct (fields : List (String × Value)) : Value :=
  .map (fields.map fun field => (.text field.1, field.2)) (minimal fields.length)

def variant (name : String) (fields : List (String × Value)) : Value := struct [(name, struct fields)]

def unsigned (n : UInt64) : Value := .uint n (minimal n.toNat)

def optional {α : Type} (shape : α → Value) : Option α → Value
  | none => .null
  | some a => shape a

def IhttpMethod.name : IhttpMethod → String
  | .get => "Get"
  | .post => "Post"
  | .put => "Put"
  | .delete => "Delete"
  | .patch => "Patch"
  | .head => "Head"

def CancelReason.name : CancelReason → String
  | .caller => "Caller"
  | .timeout => "Timeout"
  | .tooLarge => "TooLarge"
  | .busy => "Busy"
  | .rateLimited => "RateLimited"
  | .noRoute => "NoRoute"
  | .refused => "Refused"
  | .failed => "Failed"
  | .closed => "Closed"
  | .protocol => "Protocol"
  | .unavailable => "Unavailable"

def IhttpHeader.shape (header : IhttpHeader) : Value := struct [("name", .text header.name), ("value", .text header.value)]

def headersShape (headers : List IhttpHeader) : Value := .array (headers.map IhttpHeader.shape)

def IhttpFrameKind.shape : IhttpFrameKind → Value
  | .requestHead method path query headers bodyLen appId scopeKey =>
    variant "RequestHead"
      [("method", .text method.name), ("path", .text path), ("query", optional .text query),
        ("headers", headersShape headers), ("body_len", optional unsigned bodyLen), ("app_id", .text appId),
        ("scope_key", .text scopeKey)]
  | .responseHead status headers bodyLen =>
    variant "ResponseHead"
      [("status", unsigned status.toUInt64), ("headers", headersShape headers), ("body_len", optional unsigned bodyLen)]
  | .body bytes => variant "Body" [("bytes", .bytes bytes)]
  | .end_ => .text "End"
  | .cancel reason => variant "Cancel" [("reason", .text reason.name)]
  | .credit n => variant "Credit" [("n", unsigned n.toUInt64)]

def IhttpFrame.shape (frame : IhttpFrame) : Value :=
  struct [("v", unsigned frame.v.toUInt64), ("stream", unsigned frame.stream), ("kind", frame.kind.shape)]

/-! ## Sizes -/

theorem length_utf8 (t : String) : (utf8 t).length = t.utf8ByteSize := by
  rw [utf8, Array.length_toList]
  rfl

theorem length_text (t : String) : (Value.text t).write.length ≤ 9 + t.utf8ByteSize := by
  have := length_head 3 (utf8 t).length (minimal (utf8 t).length)
  rw [Value.write, List.length_append, length_utf8] at *
  omega

theorem length_bytes (b : Bytes) : (Value.bytes b).write.length ≤ 9 + b.length := by
  have := length_head 2 b.length (minimal b.length)
  rw [Value.write, List.length_append]
  omega

theorem length_unsigned (n : UInt64) : (unsigned n).write.length ≤ 9 := length_head 0 _ _

theorem length_optional {α : Type} {shape : α → Value} {most : Nat} {value : Option α} (hmost : 1 ≤ most)
    (h : ∀ a, value = some a → (shape a).write.length ≤ most) : (optional shape value).write.length ≤ most := by
  cases value with
  | none => exact hmost
  | some a => exact h a rfl

theorem length_struct {fields : List (String × Value)} (h : ∀ name ∈ fields.map Prod.fst, name.utf8ByteSize ≤ 12) :
    (struct fields).write.length ≤ 9 + (fields.map fun field => 21 + field.2.write.length).sum := by
  have hhead := length_head 5 (fields.map fun field => (Value.text field.1, field.2)).length (minimal fields.length)
  have hentries : (Value.writeEntries (fields.map fun field => (.text field.1, field.2))).length ≤
      (fields.map fun field => 21 + field.2.write.length).sum := by
    clear hhead
    induction fields with
    | nil => exact le_refl _
    | cons field fields ih =>
      have hrest := ih fun name hname => h name (List.mem_cons_of_mem _ hname)
      have hname := h field.1 List.mem_cons_self
      have htext := length_text field.1
      simp only [List.map_cons, List.sum_cons, Value.writeEntries, List.length_append]
      omega
  rw [struct, Value.write, List.length_append]
  omega

theorem length_variant {name : String} {fields : List (String × Value)} (hname : name.utf8ByteSize ≤ 12)
    (h : ∀ name ∈ fields.map Prod.fst, name.utf8ByteSize ≤ 12) :
    (variant name fields).write.length ≤ 39 + (fields.map fun field => 21 + field.2.write.length).sum := by
  have houter : (variant name fields).write.length ≤ _ :=
    length_struct (show ∀ n ∈ [name], n.utf8ByteSize ≤ 12 by simpa using hname)
  have hinner := length_struct h
  simp only [List.map_cons, List.map_nil, List.sum_cons, List.sum_nil] at houter
  omega

theorem length_header {header : IhttpHeader} (h : headerOk header = true) : header.shape.write.length ≤ 1093 := by
  have hsize : header.name.utf8ByteSize + header.value.utf8ByteSize ≤ MAX_HEADER_BYTES := by
    simp only [headerOk, Bool.and_eq_true, decide_eq_true_eq] at h
    exact h.1.1.1.1
  have hstruct : header.shape.write.length ≤ _ :=
    length_struct (show ∀ name ∈ ["name", "value"], name.utf8ByteSize ≤ 12 by decide)
  have hname := length_text header.name
  have hvalue := length_text header.value
  simp only [List.map_cons, List.map_nil, List.sum_cons, List.sum_nil] at hstruct
  rw [MAX_HEADER_BYTES] at hsize
  omega

theorem headersOk_eq_ok {headers : List IhttpHeader} (h : headersOk headers = .ok ()) :
    headers.length ≤ MAX_HEADERS ∧ ∀ header ∈ headers, headerOk header = true := by
  rw [headersOk] at h
  split at h
  case isTrue => cases h
  case isFalse hok =>
    rw [not_or, not_lt, Bool.not_eq_false, List.all_eq_true] at hok
    exact hok

theorem length_headers {headers : List IhttpHeader} (h : headersOk headers = .ok ()) :
    (headersShape headers).write.length ≤ 34985 := by
  obtain ⟨hcount, hheaders⟩ := headersOk_eq_ok h
  have hitems : (Value.writeItems (headers.map IhttpHeader.shape)).length ≤ headers.length * 1093 := by
    clear h hcount
    induction headers with
    | nil => exact le_refl _
    | cons header headers ih =>
      have hrest := ih fun x hx => hheaders x (List.mem_cons_of_mem _ hx)
      have hheader := length_header (hheaders header List.mem_cons_self)
      rw [List.map_cons, Value.writeItems, List.length_append, List.length_cons]
      omega
  have hhead := length_head 4 (headers.map IhttpHeader.shape).length (minimal (headers.map IhttpHeader.shape).length)
  rw [headersShape, Value.write, List.length_append]
  rw [MAX_HEADERS] at hcount
  omega

theorem length_method (method : IhttpMethod) : (Value.text method.name).write.length ≤ 7 := by
  cases method <;> decide +kernel

theorem length_reason (reason : CancelReason) : (Value.text reason.name).write.length ≤ 12 := by
  cases reason <;> decide +kernel

theorem validate_requestHead {v : UInt8} {stream : UInt64} {method : IhttpMethod} {path : String} {query : Option String}
    {headers : List IhttpHeader} {bodyLen : Option UInt64} {appId scopeKey : String}
    (h : validate ⟨v, stream, .requestHead method path query headers bodyLen appId scopeKey⟩ = .ok ()) :
    path.utf8ByteSize + (query.map (·.utf8ByteSize)).getD 0 ≤ MAX_PATH_BYTES ∧ headersOk headers = .ok () ∧
      appId.utf8ByteSize ≤ MAX_APP_ID_CHARS ∧ scopeKey.utf8ByteSize ≤ MAX_SCOPE_KEY_BYTES := by
  unfold validate at h
  split at h
  case isTrue => cases h
  case isFalse =>
    dsimp only at h
    split at h
    case isTrue => cases h
    case isFalse hpath =>
      split at h
      case isTrue => cases h
      case isFalse =>
        obtain ⟨⟨⟩, hheaders, h⟩ := bind_eq_ok.mp h
        split at h
        case isTrue => cases h
        case isFalse =>
          split at h
          case isTrue => cases h
          case isFalse happ =>
            split at h
            case isTrue => cases h
            case isFalse hscope =>
              refine ⟨not_lt.mp fun hlt => hpath (Or.inr hlt), hheaders, ?_, not_lt.mp fun hlt => hscope (Or.inr (Or.inl hlt))⟩
              simp only [Bool.not_eq_false, validateAppId, Bool.and_eq_true, decide_eq_true_eq] at happ
              exact happ.1.1.2

theorem validate_responseHead {v : UInt8} {stream : UInt64} {status : UInt16} {headers : List IhttpHeader}
    {bodyLen : Option UInt64} (h : validate ⟨v, stream, .responseHead status headers bodyLen⟩ = .ok ()) :
    headersOk headers = .ok () := by
  unfold validate at h
  split at h
  case isTrue => cases h
  case isFalse =>
    dsimp only at h
    split at h
    case isTrue => cases h
    case isFalse => exact (bind_eq_ok.mp h).choose_spec.1

theorem validate_body {v : UInt8} {stream : UInt64} {bytes : Bytes} (h : validate ⟨v, stream, .body bytes⟩ = .ok ()) :
    bytes.length ≤ MAX_BODY_CHUNK_BYTES := by
  unfold validate at h
  split at h
  case isTrue => cases h
  case isFalse =>
    dsimp only at h
    split at h
    case isTrue => cases h
    case isFalse hbody => exact not_lt.mp fun hlt => hbody (Or.inr hlt)

theorem length_kind {frame : IhttpFrame} (h : validate frame = .ok ()) :
    frame.kind.shape.write.length ≤ 69500 := by
  obtain ⟨v, stream, kind⟩ := frame
  show kind.shape.write.length ≤ 69500
  cases kind with
  | requestHead method path query headers bodyLen appId scopeKey =>
    obtain ⟨hpath, hheaders, happ, hscope⟩ := validate_requestHead h
    rw [MAX_PATH_BYTES] at hpath
    rw [MAX_APP_ID_CHARS] at happ
    rw [MAX_SCOPE_KEY_BYTES] at hscope
    have hmethod := length_method method
    have hpathText := length_text path
    have hqueryText : (optional Value.text query).write.length ≤ 9 + (query.map (·.utf8ByteSize)).getD 0 := by
      refine length_optional (by omega) (fun a ha => ?_)
      rw [ha]
      exact length_text a
    have hheadersText := length_headers hheaders
    have hbody : (optional unsigned bodyLen).write.length ≤ 9 := length_optional (by omega) fun a _ => length_unsigned a
    have happText := length_text appId
    have hscopeText := length_text scopeKey
    have hvariant : (IhttpFrameKind.requestHead method path query headers bodyLen appId scopeKey).shape.write.length ≤ _ :=
      length_variant (by decide) (show ∀ name ∈ ["method", "path", "query", "headers", "body_len", "app_id", "scope_key"],
        name.utf8ByteSize ≤ 12 by decide)
    simp only [List.map_cons, List.map_nil, List.sum_cons, List.sum_nil] at hvariant
    omega
  | responseHead status headers bodyLen =>
    have hstatus := length_unsigned status.toUInt64
    have hheaders := length_headers (validate_responseHead h)
    have hbody : (optional unsigned bodyLen).write.length ≤ 9 := length_optional (by omega) fun a _ => length_unsigned a
    have hvariant : (IhttpFrameKind.responseHead status headers bodyLen).shape.write.length ≤ _ :=
      length_variant (by decide) (show ∀ name ∈ ["status", "headers", "body_len"], name.utf8ByteSize ≤ 12 by decide)
    simp only [List.map_cons, List.map_nil, List.sum_cons, List.sum_nil] at hvariant
    omega
  | body bytes =>
    have hbytes := validate_body h
    rw [MAX_BODY_CHUNK_BYTES] at hbytes
    have hlength := length_bytes bytes
    have hvariant : (IhttpFrameKind.body bytes).shape.write.length ≤ _ :=
      length_variant (by decide) (show ∀ name ∈ ["bytes"], name.utf8ByteSize ≤ 12 by decide)
    simp only [List.map_cons, List.map_nil, List.sum_cons, List.sum_nil] at hvariant
    omega
  | end_ => decide +kernel
  | cancel reason =>
    have hreason := length_reason reason
    have hvariant : (IhttpFrameKind.cancel reason).shape.write.length ≤ _ :=
      length_variant (by decide) (show ∀ name ∈ ["reason"], name.utf8ByteSize ≤ 12 by decide)
    simp only [List.map_cons, List.map_nil, List.sum_cons, List.sum_nil] at hvariant
    omega
  | credit n =>
    have hn := length_unsigned n.toUInt64
    have hvariant : (IhttpFrameKind.credit n).shape.write.length ≤ _ :=
      length_variant (by decide) (show ∀ name ∈ ["n"], name.utf8ByteSize ≤ 12 by decide)
    simp only [List.map_cons, List.map_nil, List.sum_cons, List.sum_nil] at hvariant
    omega

theorem valid_size {frame : IhttpFrame} (h : validate frame = .ok ()) : frame.shape.write.length ≤ MAX_FRAME_BYTES := by
  have hkind := length_kind h
  have hv := length_unsigned frame.v.toUInt64
  have hstream := length_unsigned frame.stream
  have hstruct : frame.shape.write.length ≤ _ :=
    length_struct (show ∀ name ∈ ["v", "stream", "kind"], name.utf8ByteSize ≤ 12 by decide)
  simp only [List.map_cons, List.map_nil, List.sum_cons, List.sum_nil] at hstruct
  have hmax : MAX_FRAME_BYTES = 69632 := rfl
  omega

/-! ## Lengths and levels -/

/-- What is short enough to be written has lengths that fit. -/
def Holds (v : Value) : Prop := v.write.length < 2 ^ 64 → v.Fits

theorem holds_text (t : String) : Holds (.text t) := by
  intro h
  rw [Value.write, List.length_append] at h
  show (utf8 t).length < 2 ^ 64
  omega

theorem holds_bytes (b : Bytes) : Holds (.bytes b) := by
  intro h
  rw [Value.write, List.length_append] at h
  show b.length < 2 ^ 64
  omega

theorem holds_unsigned (n : UInt64) : Holds (unsigned n) := fun _ => Conversations.Cbor.minimal_capacity n.toNat_lt

theorem holds_optional {α : Type} {shape : α → Value} (h : ∀ a, Holds (shape a)) (value : Option α) :
    Holds (optional shape value) := by
  cases value with
  | none => exact fun _ => trivial
  | some a => exact h a

theorem holds_array {items : List Value} (h : ∀ item ∈ items, Holds item) : Holds (.array items) := by
  intro hlength
  rw [Value.write, List.length_append] at hlength
  have hitems : (Value.writeItems items).length < 2 ^ 64 := by omega
  refine ⟨lt_of_le_of_lt (Value.length_le_writeItems items) hitems, ?_⟩
  clear hlength
  induction items with
  | nil => exact trivial
  | cons item items ih =>
    rw [Value.writeItems, List.length_append] at hitems
    refine ⟨h item List.mem_cons_self (by omega), ih (fun x hx => h x (List.mem_cons_of_mem _ hx)) (by omega)⟩

theorem holds_struct {fields : List (String × Value)} (h : fields.Forall fun field => Holds field.2) :
    Holds (struct fields) := by
  rw [List.forall_iff_forall_mem] at h
  intro hlength
  rw [struct, Value.write, List.length_append] at hlength
  have hentries : (Value.writeEntries (fields.map fun field => (.text field.1, field.2))).length < 2 ^ 64 := by omega
  have hcount := Value.length_le_writeEntries (fields.map fun field => (Value.text field.1, field.2))
  rw [List.length_map] at hcount
  refine ⟨?_, ?_⟩
  · rw [List.length_map]
    exact Conversations.Cbor.minimal_capacity (by omega)
  · clear hlength hcount
    induction fields with
    | nil => exact trivial
    | cons field fields ih =>
      simp only [List.map_cons, Value.writeEntries, List.length_append] at hentries
      exact ⟨holds_text field.1 (by omega), h field List.mem_cons_self (by omega),
        ih (fun f hf => h f (List.mem_cons_of_mem _ hf)) (by omega)⟩

theorem holds_variant {name : String} {fields : List (String × Value)} (h : fields.Forall fun field => Holds field.2) :
    Holds (variant name fields) :=
  @holds_struct [(name, struct fields)] (holds_struct h)

theorem holds_header (header : IhttpHeader) : Holds header.shape := holds_struct ⟨holds_text _, holds_text _⟩

theorem holds_headers (headers : List IhttpHeader) : Holds (headersShape headers) :=
  holds_array (List.forall_mem_map.mpr fun header _ => holds_header header)

theorem holds_kind (kind : IhttpFrameKind) : Holds kind.shape := by
  cases kind with
  | requestHead method path query headers bodyLen appId scopeKey =>
    exact holds_variant ⟨holds_text _, holds_text _, holds_optional holds_text _, holds_headers _,
      holds_optional holds_unsigned _, holds_text _, holds_text _⟩
  | responseHead status headers bodyLen =>
    exact holds_variant ⟨holds_unsigned _, holds_headers _, holds_optional holds_unsigned _⟩
  | body bytes => exact @holds_variant "Body" [("bytes", .bytes bytes)] (holds_bytes bytes)
  | end_ => exact holds_text _
  | cancel reason => exact @holds_variant "Cancel" [("reason", .text reason.name)] (holds_text _)
  | credit n => exact @holds_variant "Credit" [("n", unsigned n.toUInt64)] (holds_unsigned _)

theorem holds_frame (frame : IhttpFrame) : Holds frame.shape :=
  holds_struct ⟨holds_unsigned _, holds_unsigned _, holds_kind _⟩

theorem nesting_struct {fields : List (String × Value)} {n : Nat} (h : fields.Forall fun field => field.2.nesting ≤ n) :
    (struct fields).nesting ≤ n + 1 := by
  rw [List.forall_iff_forall_mem] at h
  rw [struct, Value.nesting]
  induction fields with
  | nil => exact Nat.zero_le _
  | cons field fields ih =>
    have hfield := h field List.mem_cons_self
    have hfields := ih fun f hf => h f (List.mem_cons_of_mem _ hf)
    have hname : (Value.text field.1).nesting = 0 := rfl
    simp only [List.map_cons, Value.nestingEntries, hname]
    omega

theorem nesting_variant {name : String} {fields : List (String × Value)} {n : Nat}
    (h : fields.Forall fun field => field.2.nesting ≤ n) : (variant name fields).nesting ≤ n + 2 :=
  @nesting_struct [(name, struct fields)] (n + 1) (nesting_struct h)

theorem nesting_headers (headers : List IhttpHeader) : (headersShape headers).nesting ≤ 2 := by
  rw [headersShape, Value.nesting]
  induction headers with
  | nil => exact Nat.zero_le _
  | cons header headers ih =>
    have hheader : header.shape.nesting ≤ 1 := nesting_struct ⟨le_refl 0, le_refl 0⟩
    rw [List.map_cons, Value.nestingItems]
    omega

theorem nesting_optional {α : Type} {shape : α → Value} (h : ∀ a, (shape a).nesting = 0) (value : Option α) :
    (optional shape value).nesting ≤ 2 := by
  cases value with
  | none => exact Nat.zero_le _
  | some a => exact (h a).symm ▸ Nat.zero_le _

theorem nesting_kind (kind : IhttpFrameKind) : kind.shape.nesting ≤ 4 := by
  have hleaf : ∀ v : Value, v.nesting = 0 → v.nesting ≤ 2 := fun v hv => hv ▸ Nat.zero_le 2
  cases kind with
  | requestHead method path query headers bodyLen appId scopeKey =>
    exact nesting_variant ⟨hleaf _ rfl, hleaf _ rfl, nesting_optional (fun _ => rfl) _, nesting_headers _,
      nesting_optional (fun _ => rfl) _, hleaf _ rfl, hleaf _ rfl⟩
  | responseHead status headers bodyLen =>
    exact nesting_variant ⟨hleaf _ rfl, nesting_headers _, nesting_optional (fun _ => rfl) _⟩
  | body bytes => exact @nesting_variant "Body" [("bytes", .bytes bytes)] 2 (hleaf _ rfl)
  | end_ => exact Nat.zero_le _
  | cancel reason => exact @nesting_variant "Cancel" [("reason", .text reason.name)] 2 (hleaf _ rfl)
  | credit n => exact @nesting_variant "Credit" [("n", unsigned n.toUInt64)] 2 (hleaf _ rfl)

theorem nesting_frame (frame : IhttpFrame) : frame.shape.nesting ≤ MAX_DEPTH := by
  have hkind := nesting_kind frame.kind
  have hframe : frame.shape.nesting ≤ 5 := nesting_struct ⟨Nat.zero_le _, Nat.zero_le _, hkind⟩
  rw [MAX_DEPTH]
  omega

/-! ## The codec over a library that writes frames so -/

/-- `ciborium` at the type of frames: a frame that can be written at all is written as its shape, and read back. -/
structure Derived (ciborium : Ciborium) : Prop where
  writes : ∀ frame : IhttpFrame, frame.shape.Fits → ciborium.intoWriter frame = .ok frame.shape.encode
  reads : ∀ frame : IhttpFrame, frame.shape.Fits → ciborium.fromReader frame.shape.encode = .ok (frame, [])

theorem fits_of_valid {frame : IhttpFrame} (h : validate frame = .ok ()) : frame.shape.Fits :=
  holds_frame frame (lt_of_le_of_lt (valid_size h) (by decide))

section
variable {ciborium : Ciborium} {frame : IhttpFrame}

theorem withinFrameSize_ok {bytes : Bytes} (h : bytes.length ≤ MAX_FRAME_BYTES) : withinFrameSize bytes = .ok () :=
  if_neg (not_lt.mpr h)

theorem encode_of_valid (hciborium : Derived ciborium) (h : validate frame = .ok ()) : encode ciborium frame = .ok frame.shape.encode := by
  have hsize : withinFrameSize frame.shape.encode = .ok () := withinFrameSize_ok (valid_size h)
  rw [encode, h, ok_bind, hciborium.writes frame (fits_of_valid h)]
  show (withinFrameSize frame.shape.encode >>= fun _ => .ok frame.shape.encode) = _
  rw [hsize, ok_bind]

theorem decode_of_valid (hciborium : Derived ciborium) (h : validate frame = .ok ()) : decode ciborium frame.shape.encode = .ok frame := by
  have hsize : withinFrameSize frame.shape.encode = .ok () := withinFrameSize_ok (valid_size h)
  rw [decode, hsize, ok_bind, hciborium.reads frame (fits_of_valid h)]
  show (do validate frame; return frame) = _
  rw [h, ok_bind]
  rfl

theorem encode_eq_ok (hciborium : Derived ciborium) {bytes : Bytes} (h : encode ciborium frame = .ok bytes) :
    validate frame = .ok () ∧ bytes = frame.shape.encode := by
  have hvalid := (encode_valid h).1
  exact ⟨hvalid, Except.ok.inj (h.symm.trans (encode_of_valid hciborium hvalid))⟩

theorem decode_encode (hciborium : Derived ciborium) {bytes : Bytes} (h : encode ciborium frame = .ok bytes) :
    decode ciborium bytes = .ok frame := by
  obtain ⟨hvalid, rfl⟩ := encode_eq_ok hciborium h
  exact decode_of_valid hciborium hvalid

theorem read_wrap (hciborium : Derived ciborium) {bytes : Bytes} (h : encode ciborium frame = .ok bytes) :
    ∃ envelope, wrap ciborium frame = .ok envelope ∧ envelope.length ≤ MAX_FRAME_BYTES + ENVELOPE_OVERHEAD_BYTES ∧
      isEnvelope envelope = true ∧ read ciborium envelope = .frame bytes := by
  have hsize := (encode_valid h).2
  refine ⟨(Value.object [("type", .text ENVELOPE_KIND), ("payload", .bytes bytes)]).encode, ?_, ?_, ?_, ?_⟩
  · rw [wrap, h, ok_bind]
    rfl
  · exact le_trans (object_length bytes) (Nat.add_le_add_right hsize _)
  · exact List.isPrefixOf_iff_prefix.mpr (object_starts bytes)
  · rw [read_object hsize, decode_encode hciborium h, ok_bind, h]

theorem decode_of_read (hciborium : Derived ciborium) {bytes canonical : Bytes} (h : read ciborium bytes = .frame canonical) :
    ∃ checked, decode ciborium canonical = .ok checked := by
  unfold read at h
  split at h
  case isTrue => cases h
  case isFalse =>
    split at h
    case isTrue => cases h
    case isFalse =>
      split at h
      case h_2 => cases h
      case h_1 =>
        split at h
        case h_2 => cases h
        case h_1 =>
          split at h
          case isTrue => cases h
          case isFalse =>
            split at h
            case h_2 => cases h
            case h_1 checked hcanonical =>
              obtain ⟨frame, -, hencode⟩ := bind_eq_ok.mp hcanonical
              exact ⟨frame, decode_encode hciborium (Inbound.frame.inj h ▸ hencode)⟩

end

/-! ## Such a library -/

def readFields : List String → List (Value × Value) → Option (List Value)
  | [], [] => some []
  | name :: names, (.text key, v) :: entries => if key = name then (readFields names entries).map (v :: ·) else none
  | _, _ => none

def readStruct (names : List String) : Value → Option (List Value)
  | .map entries _ => readFields names entries
  | _ => none

theorem readStruct_struct (fields : List (String × Value)) :
    readStruct (fields.map Prod.fst) (struct fields) = some (fields.map Prod.snd) := by
  rw [struct, readStruct]
  induction fields with
  | nil => rfl
  | cons field fields ih =>
    simp only [List.map_cons, readFields, if_true] at ih ⊢
    rw [ih]
    rfl

def readText : Value → Option String
  | .text t => some t
  | _ => none

def readUnsigned : Value → Option UInt64
  | .uint n _ => some n
  | _ => none

def readOptional {α : Type} (read : Value → Option α) : Value → Option (Option α)
  | .null => some none
  | v => (read v).map some

def readMethod (v : Value) : Option IhttpMethod := do
  let name ← readText v
  [IhttpMethod.get, .post, .put, .delete, .patch, .head].find? fun method => method.name = name

def readReason (v : Value) : Option CancelReason := do
  let name ← readText v
  [CancelReason.caller, .timeout, .tooLarge, .busy, .rateLimited, .noRoute, .refused, .failed, .closed, .protocol,
    .unavailable].find? fun reason => reason.name = name

def readHeader (v : Value) : Option IhttpHeader := do
  let [name, value] ← readStruct ["name", "value"] v | none
  return ⟨← readText name, ← readText value⟩

def readHeaders : Value → Option (List IhttpHeader)
  | .array items => items.mapM readHeader
  | _ => none

def readKindFields (name : String) (fields : Value) : Option IhttpFrameKind :=
  if name = "RequestHead" then do
    let [method, path, query, headers, bodyLen, appId, scopeKey] ←
      readStruct ["method", "path", "query", "headers", "body_len", "app_id", "scope_key"] fields | none
    return .requestHead (← readMethod method) (← readText path) (← readOptional readText query) (← readHeaders headers)
      (← readOptional readUnsigned bodyLen) (← readText appId) (← readText scopeKey)
  else if name = "ResponseHead" then do
    let [status, headers, bodyLen] ← readStruct ["status", "headers", "body_len"] fields | none
    return .responseHead (← readUnsigned status).toUInt16 (← readHeaders headers) (← readOptional readUnsigned bodyLen)
  else if name = "Body" then do
    let [.bytes bytes] ← readStruct ["bytes"] fields | none
    return .body bytes
  else if name = "Cancel" then do
    let [reason] ← readStruct ["reason"] fields | none
    return .cancel (← readReason reason)
  else if name = "Credit" then do
    let [n] ← readStruct ["n"] fields | none
    return .credit (← readUnsigned n).toUInt32
  else none

def readKind : Value → Option IhttpFrameKind
  | .text "End" => some .end_
  | .map [(.text name, fields)] _ => readKindFields name fields
  | _ => none

def IhttpFrame.ofShape (v : Value) : Option IhttpFrame := do
  let [version, stream, kind] ← readStruct ["v", "stream", "kind"] v | none
  return ⟨(← readUnsigned version).toUInt8, ← readUnsigned stream, ← readKind kind⟩

theorem readMethod_name (method : IhttpMethod) : readMethod (.text method.name) = some method := by
  cases method <;> decide

theorem readReason_name (reason : CancelReason) : readReason (.text reason.name) = some reason := by
  cases reason <;> decide

theorem readOptional_text (value : Option String) : readOptional readText (optional .text value) = some value := by
  cases value <;> rfl

theorem readOptional_unsigned (value : Option UInt64) : readOptional readUnsigned (optional unsigned value) = some value := by
  cases value <;> rfl

theorem readHeader_shape (header : IhttpHeader) : readHeader header.shape = some header := by
  have hfields : readStruct ["name", "value"] header.shape = some [.text header.name, .text header.value] :=
    readStruct_struct [("name", .text header.name), ("value", .text header.value)]
  rw [readHeader, hfields]
  rfl

theorem readHeaders_shape (headers : List IhttpHeader) : readHeaders (headersShape headers) = some headers := by
  rw [headersShape, readHeaders]
  induction headers with
  | nil => rfl
  | cons header headers ih =>
    rw [List.map_cons, List.mapM_cons, readHeader_shape, ih]
    rfl

theorem readKind_variant (name : String) (fields : List (String × Value)) :
    readKind (variant name fields) = readKindFields name (struct fields) := rfl

theorem readKind_shape (kind : IhttpFrameKind) : readKind kind.shape = some kind := by
  cases kind with
  | requestHead method path query headers bodyLen appId scopeKey =>
    rw [IhttpFrameKind.shape, readKind_variant, readKindFields, if_pos rfl]
    have hfields := readStruct_struct
      [("method", .text method.name), ("path", .text path), ("query", optional .text query),
        ("headers", headersShape headers), ("body_len", optional unsigned bodyLen), ("app_id", .text appId),
        ("scope_key", .text scopeKey)]
    simp only [List.map_cons, List.map_nil] at hfields
    rw [hfields]
    simp only [Option.bind_eq_bind, Option.bind_some, readMethod_name, readOptional_text, readHeaders_shape,
      readOptional_unsigned]
    rfl
  | responseHead status headers bodyLen =>
    rw [IhttpFrameKind.shape, readKind_variant, readKindFields, if_neg (by decide), if_pos rfl]
    have hfields := readStruct_struct
      [("status", unsigned status.toUInt64), ("headers", headersShape headers), ("body_len", optional unsigned bodyLen)]
    simp only [List.map_cons, List.map_nil] at hfields
    rw [hfields]
    simp only [Option.bind_eq_bind, Option.bind_some, readHeaders_shape, readOptional_unsigned]
    show some (IhttpFrameKind.responseHead status.toUInt64.toUInt16 headers bodyLen) = _
    rw [UInt16.toUInt16_toUInt64]
  | body bytes => rfl
  | end_ => rfl
  | cancel reason =>
    show (readReason (.text reason.name)).bind (fun r => some (IhttpFrameKind.cancel r)) = _
    rw [readReason_name]
    rfl
  | credit n =>
    show some (IhttpFrameKind.credit n.toUInt64.toUInt32) = _
    rw [UInt32.toUInt32_toUInt64]

theorem ofShape_shape (frame : IhttpFrame) : IhttpFrame.ofShape frame.shape = some frame := by
  have hfields := readStruct_struct
    [("v", unsigned frame.v.toUInt64), ("stream", unsigned frame.stream), ("kind", frame.kind.shape)]
  simp only [List.map_cons, List.map_nil] at hfields
  rw [IhttpFrame.ofShape, IhttpFrame.shape, hfields]
  simp only [Option.bind_eq_bind, Option.bind_some, readKind_shape]
  show some (⟨frame.v.toUInt64.toUInt8, frame.stream, frame.kind⟩ : IhttpFrame) = _
  rw [UInt8.toUInt8_toUInt64]

def plain : Ciborium where
  intoWriter frame := .ok frame.shape.encode
  fromReader bytes :=
    match Value.decode bytes with
    | .ok v => (IhttpFrame.ofShape v).elim (.error "not a frame") fun frame => .ok (frame, [])
    | .error _ => .error "not one CBOR value"

theorem derived_plain : Derived plain where
  writes _ _ := rfl
  reads frame h := by
    show (match Value.decode frame.shape.encode with | .ok v => _ | .error _ => _) = _
    rw [Value.decode_encode h (nesting_frame frame)]
    show (IhttpFrame.ofShape frame.shape).elim _ _ = _
    rw [ofShape_shape]
    rfl

/-! ## The frames survive -/

theorem frames_survive {ciborium : Ciborium} (hciborium : Derived ciborium) :
    (∀ frame, ((∃ bytes, encode ciborium frame = .ok bytes) ↔ validate frame = .ok ()) ∧
      (validate frame = .ok () → ∃ out, ciborium.intoWriter frame = .ok out ∧ out.length ≤ MAX_FRAME_BYTES) ∧
      ∀ bytes, encode ciborium frame = .ok bytes →
        decode ciborium bytes = .ok frame ∧
          ∃ envelope, wrap ciborium frame = .ok envelope ∧ envelope.length ≤ MAX_FRAME_BYTES + ENVELOPE_OVERHEAD_BYTES ∧
            isEnvelope envelope = true ∧ read ciborium envelope = .frame bytes) ∧
    ∀ bytes, read ciborium bytes = .other ∨ (∃ why, read ciborium bytes = .malformed why) ∨
      ∃ canonical, read ciborium bytes = .frame canonical ∧ ∃ frame, decode ciborium canonical = .ok frame := by
  refine ⟨fun frame => ⟨⟨?_, fun h => ⟨_, encode_of_valid hciborium h⟩⟩, fun h => ?_, fun bytes h => ?_⟩, fun bytes => ?_⟩
  · rintro ⟨bytes, h⟩
    exact (encode_valid h).1
  · exact ⟨_, hciborium.writes frame (fits_of_valid h), valid_size h⟩
  · exact ⟨decode_encode hciborium h, read_wrap hciborium h⟩
  · cases hread : read ciborium bytes with
    | other => exact Or.inl rfl
    | malformed why => exact Or.inr (Or.inl ⟨why, rfl⟩)
    | frame canonical => exact Or.inr (Or.inr ⟨canonical, rfl, decode_of_read hciborium hread⟩)

/-- The end of stream 5, written and read. -/
theorem frames_survive_plain :
    let frame : IhttpFrame := ⟨1, 5, .end_⟩
    validate frame = .ok () ∧ encode plain frame = .ok frame.shape.encode ∧ decode plain frame.shape.encode = .ok frame := by
  have hvalid : validate ⟨1, 5, .end_⟩ = .ok () := rfl
  have hencoded := encode_of_valid derived_plain hvalid
  exact ⟨hvalid, hencoded, (((frames_survive derived_plain).1 _).2.2 _ hencoded).1⟩

end CitadelAgent.Ihttp.Wire
