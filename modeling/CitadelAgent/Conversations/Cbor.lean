import CitadelAgent.Lib.Float64

/-!
# CBOR as cbor-x writes it

`cbor.rs` and `cbor_decode.rs`: the value type that keeps each integer's and map's header width, its writer and
its reader.

* `Value`, `Width` : what is read and written;
* `Reader`, `Reader.value`, `Value.decode` : the reader, over the bytes left and the offset its errors name. The
  source's `value(depth)` is `Reader.value (MAX_DEPTH + 1 - depth)`: the levels that may still be entered.
-/

namespace CitadelAgent.Conversations.Cbor
open BigEndian

inductive Width
  | inline | one | two | four | eight
  deriving DecidableEq

inductive Value
  | uint (n : UInt64) (w : Width)
  /-- The value is `-1 - n`. -/
  | nint (n : UInt64) (w : Width)
  | bytes (b : List UInt8)
  | text (t : String)
  | array (items : List Value)
  | map (entries : List (Value × Value)) (w : Width)
  | tag (tag : UInt64) (inner : Value)
  | bool (b : Bool)
  | null
  | undefined
  | float (f : F64)

/-- What `DecodeError` can say. -/
inductive DecodeError
  /-- "{n} trailing byte(s) after the value" -/
  | trailing (n : Nat)
  /-- "truncated at byte {at}" -/
  | truncated (pos : Nat)
  | reservedLength (info : Nat)
  /-- "length {n} exceeds the {left} bytes left" -/
  | lengthExceeds (n left : Nat)
  /-- "nested too deeply" -/
  | nestedTooDeeply
  /-- "invalid UTF-8: {err}", where `err` says what is wrong with `bs` -/
  | invalidUtf8 (bs : List UInt8)
  /-- "unsupported simple value {other}" -/
  | unsupportedSimple (info : Nat)

def MAX_DEPTH : Nat := 64

def minimal (n : Nat) : Width :=
  if n < 24 then .inline
  else if n < 0x100 then .one
  else if n < 0x10000 then .two
  else if n < 0x100000000 then .four
  else .eight

namespace Value

/-! ## JS values -/

/-- A JS `bigint`. -/
def bigint (value : UInt64) : Value := .uint value .eight

/-- A JS `number`, as cbor-x writes one: an integer in the uint32 or int32 range, else a float64. -/
def number (value : F64) : Value :=
  let isInteger := value.fract.eq (F64.ofNat 0) && value.isFinite
  if isInteger && (F64.ofNat 0).le value && value.le (F64.ofNat (2 ^ 32 - 1)) then
    let n := value.toU64
    .uint n (minimal n.toNat)
  else if isInteger && (F64.ofInt (-2 ^ 31)).le value && value.lt (F64.ofNat 0) then
    let n := ((F64.ofInt (-1)).sub value).toU64
    .nint n (minimal n.toNat)
  else .float value

def object (fields : List (String × Value)) : Value :=
  .map (fields.map fun (k, v) => (.text k, v)) .two

def isKey (key : String) : Value → Bool
  | .text t => t = key
  | _ => false

/-- The value under the text key `key`, if this is a map. -/
def get (key : String) : Value → Option Value
  | .map entries _ => (entries.find? fun entry => isKey key entry.1).map Prod.snd
  | _ => none

def asStr : Value → Option String
  | .text t => some t
  | _ => none

def asNumber : Value → Option F64
  | .uint n w => if w ≠ .eight then some (F64.ofNat n.toNat) else none
  | .nint n w => if w ≠ .eight then some ((F64.ofInt (-1)).sub (F64.ofNat n.toNat)) else none
  | .float f => some f
  | _ => none

def asBigint : Value → Option UInt64
  | .uint n .eight => some n
  | _ => none

def asBool : Value → Option Bool
  | .bool b => some b
  | _ => none

end Value

/-! ## Writing -/

/-- The bytes of an initial byte of major type `major` and its argument: `n` is cut to the width, as `as` casts. -/
def head (major n : Nat) (width : Width) : List UInt8 :=
  let m := UInt8.ofNat major <<< 5
  match width with
  | .inline => [m ||| UInt8.ofNat n]
  | .one => (m ||| 24) :: beBytes 1 n
  | .two => (m ||| 25) :: beBytes 2 n
  | .four => (m ||| 26) :: beBytes 4 n
  | .eight => (m ||| 27) :: beBytes 8 n

/-- `str::as_bytes`. -/
def utf8 (t : String) : List UInt8 := t.toByteArray.data.toList

namespace Value

mutual

def write : Value → List UInt8
  | .uint n w => head 0 n.toNat w
  | .nint n w => head 1 n.toNat w
  | .bytes b => head 2 b.length (minimal b.length) ++ b
  | .text t => head 3 (utf8 t).length (minimal (utf8 t).length) ++ utf8 t
  | .array items => head 4 items.length (minimal items.length) ++ writeItems items
  | .map entries w => head 5 entries.length w ++ writeEntries entries
  | .tag n inner => head 6 n.toNat (minimal n.toNat) ++ write inner
  | .bool false => [0xf4]
  | .bool true => [0xf5]
  | .null => [0xf6]
  | .undefined => [0xf7]
  | .float f => 0xfb :: f.toBeBytes

def writeItems : List Value → List UInt8
  | [] => []
  | item :: items => write item ++ writeItems items

def writeEntries : List (Value × Value) → List UInt8
  | [] => []
  | entry :: entries => write entry.1 ++ write entry.2 ++ writeEntries entries

end

def encode (v : Value) : List UInt8 := v.write

end Value

/-! ## Reading -/

structure Reader where
  left : List UInt8
  pos : Nat

/-- IEEE 754 half precision; `fraction / 1024.0` is written as the product with `2 ^ -10`, which is exact. -/
def half (bits : UInt16) : F64 :=
  let sign := if bits &&& 0x8000 ≠ 0 then F64.ofInt (-1) else F64.ofInt 1
  let exponent := ((bits >>> 10) &&& 0x1f).toNat
  let fraction := F64.ofNat (bits &&& 0x3ff).toNat
  sign.mul
    (if exponent = 0 then fraction.mul (F64.pow2 (-24))
    else if exponent = 31 then (if fraction.eq (F64.ofNat 0) then F64.infinity else F64.nan)
    else ((F64.ofInt 1).add (fraction.mul (F64.pow2 (-10)))).mul (F64.pow2 (exponent - 15)))

/-- `std::str::from_utf8`. -/
def fromUtf8 (bs : List UInt8) : Option String := String.fromUTF8? ⟨bs.toArray⟩

namespace Reader

def take (n : Nat) (r : Reader) : Except DecodeError (List UInt8 × Reader) :=
  if n ≤ r.left.length then .ok (r.left.take n, ⟨r.left.drop n, r.pos + n⟩)
  else .error (.truncated r.pos)

/-- `self.take(1)?[0]`. -/
def byte (r : Reader) : Except DecodeError (UInt8 × Reader) := do
  let (bs, r) ← r.take 1
  return (UInt8.ofNat (ofBe bs), r)

/-- The `n`-byte big-endian argument after an initial byte. -/
def word (n : Nat) (w : Width) (r : Reader) : Except DecodeError ((Nat × Width) × Reader) := do
  let (bs, r) ← r.take n
  return ((ofBe bs, w), r)

def argument (info : Nat) (r : Reader) : Except DecodeError ((Nat × Width) × Reader) :=
  if info < 24 then .ok ((info, .inline), r)
  else match info with
    | 24 => r.word 1 .one
    | 25 => r.word 2 .two
    | 26 => r.word 4 .four
    | 27 => r.word 8 .eight
    | _ => .error (.reservedLength info)

def length (info : Nat) (r : Reader) : Except DecodeError ((Nat × Width) × Reader) := do
  let ((n, w), r) ← r.argument info
  if n > r.left.length then throw (.lengthExceeds n r.left.length)
  return ((n, w), r)

/-- `for _ in 0..n`, collecting what each round reads. -/
def many {α : Type} (read : Reader → Except DecodeError (α × Reader)) :
    Nat → Reader → Except DecodeError (List α × Reader)
  | 0, r => .ok ([], r)
  | n + 1, r => do
    let (x, r) ← read r
    let (xs, r) ← many read n r
    return (x :: xs, r)

def entry (read : Reader → Except DecodeError (Value × Reader)) (r : Reader) :
    Except DecodeError ((Value × Value) × Reader) := do
  let (key, r) ← read r
  let (value, r) ← read r
  return ((key, value), r)

/-- The values of major type 7: `info` is the initial byte's low five bits. -/
def simple (info : Nat) (r : Reader) : Except DecodeError (Value × Reader) :=
  match info with
  | 20 => .ok (.bool false, r)
  | 21 => .ok (.bool true, r)
  | 22 => .ok (.null, r)
  | 23 => .ok (.undefined, r)
  | 25 => do
    let (bs, r) ← r.take 2
    return (.float (half (UInt16.ofNat (ofBe bs))), r)
  | 26 => do
    let (bs, r) ← r.take 4
    return (.float (F64.ofSingle (UInt32.ofNat (ofBe bs))), r)
  | 27 => do
    let (bs, r) ← r.take 8
    return (.float (F64.fromBeBytes bs), r)
  | other => .error (.unsupportedSimple other)

/-- What follows an initial byte of major type `major`; `read` reads a value one level down. -/
def content (read : Reader → Except DecodeError (Value × Reader)) (major info : Nat) (r : Reader) :
    Except DecodeError (Value × Reader) :=
  match major with
  | 0 => do
    let ((n, w), r) ← r.argument info
    return (.uint (UInt64.ofNat n) w, r)
  | 1 => do
    let ((n, w), r) ← r.argument info
    return (.nint (UInt64.ofNat n) w, r)
  | 2 => do
    let ((n, _), r) ← r.length info
    let (bs, r) ← r.take n
    return (.bytes bs, r)
  | 3 => do
    let ((n, _), r) ← r.length info
    let (bs, r) ← r.take n
    match fromUtf8 bs with
    | some text => return (.text text, r)
    | none => throw (.invalidUtf8 bs)
  | 4 => do
    let ((n, _), r) ← r.length info
    let (items, r) ← many read n r
    return (.array items, r)
  | 5 => do
    let ((n, w), r) ← r.length info
    let (entries, r) ← many (entry read) n r
    return (.map entries w, r)
  | 6 => do
    let ((tag, _), r) ← r.argument info
    let (inner, r) ← read r
    return (.tag (UInt64.ofNat tag) inner, r)
  | _ => simple info r

/-- One value, of at most `levels` levels. -/
def value : Nat → Reader → Except DecodeError (Value × Reader)
  | 0, _ => .error .nestedTooDeeply
  | levels + 1, r => do
    let (initial, r) ← r.byte
    content (value levels) (initial >>> 5).toNat (initial &&& 0x1f).toNat r

end Reader

def Value.decode (bytes : List UInt8) : Except DecodeError Value := do
  let (value, reader) ← Reader.value (MAX_DEPTH + 1) ⟨bytes, 0⟩
  if reader.left ≠ [] then throw (.trailing reader.left.length)
  return value

end CitadelAgent.Conversations.Cbor
