import CitadelAgent.Lib.Float64Exact
import CitadelAgent.Lib.Result

/-!
# JSON values, and structs read from them

The value type of a JSON library whose numbers are 64-bit integers or finite doubles, and the way a derived
reader takes a struct out of one: by field name from an object, by position from an array.

* `Json`, `Json.Fields` : values, and an object's fields with `get`, `insert`, `remove`;
* `Json.struct`, `Json.required`, `Json.defaulted` and the `read…` functions : the reader.
-/

structure FiniteF64 where
  val : F64
  finite : val.isFinite = true

inductive Json.Number
  | posInt (n : UInt64)
  | negInt (n : Int64)
  | float (f : FiniteF64)

inductive Json
  | null
  | bool (b : Bool)
  | number (n : Json.Number)
  | string (s : String)
  | array (items : List Json)
  | object (fields : List (String × Json))

namespace Json

inductive Error
  | missingField (name : String)
  | invalidType
  | invalidLength
  | unknownVariant

/-- `Number::as_f64`. -/
def Number.asF64 : Number → F64
  | .posInt n => F64.ofNat n.toNat
  | .negInt n => F64.ofInt n.toInt
  | .float f => f.val

/-- `Number::from`, of a signed integer. -/
def Number.ofInt (n : Int) : Number :=
  if 0 ≤ n then .posInt (UInt64.ofNat n.toNat) else .negInt (Int64.ofInt n)

def isNull : Json → Bool
  | .null => true
  | _ => false

abbrev Fields := List (String × Json)

variable {key : String} {fields : Fields}

namespace Fields

def get : Fields → String → Option Json
  | [], _ => none
  | (k, v) :: fields, key => if k = key then some v else get fields key

def insert (key : String) (value : Json) : Fields → Fields
  | [] => [(key, value)]
  | (k, v) :: fields => if k = key then (k, value) :: fields else (k, v) :: insert key value fields

def remove (key : String) (fields : Fields) : Fields := fields.filter fun field => field.1 ≠ key

theorem get_insert (key key' : String) (value : Json) (fields : Fields) :
    get (insert key value fields) key' = if key = key' then some value else get fields key' := by
  induction fields with
  | nil => simp [insert, get]
  | cons field fields ih =>
    obtain ⟨k, v⟩ := field
    by_cases hk : k = key
    · subst hk
      by_cases h : k = key'
      · simp [insert, get, h]
      · simp [insert, get, h]
    · by_cases h : k = key'
      · subst h
        simp [insert, get, hk, Ne.symm hk]
      · simp [insert, get, hk, h, ih]

theorem get_remove (key key' : String) (fields : Fields) :
    get (remove key fields) key' = if key = key' then none else get fields key' := by
  induction fields with
  | nil => simp [remove, get]
  | cons field fields ih =>
    obtain ⟨k, v⟩ := field
    unfold remove at ih ⊢
    by_cases hk : k = key
    · subst hk
      by_cases h : k = key'
      · simpa [get, h] using ih
      · simpa [get, h] using ih
    · by_cases h : k = key'
      · subst h
        simp [get, hk, Ne.symm hk]
      · simpa [get, hk, h] using ih

theorem get_eq_none_of_not_mem (h : key ∉ fields.map Prod.fst) :
    get fields key = none := by
  induction fields with
  | nil => rfl
  | cons field fields ih =>
    obtain ⟨k, v⟩ := field
    simp only [List.map_cons, List.mem_cons, not_or] at h
    simp [get, Ne.symm h.1, ih h.2]

theorem mem_keys_insert (key : String) (value : Json) (fields : Fields) (key' : String) :
    key' ∈ (insert key value fields).map Prod.fst ↔ key' = key ∨ key' ∈ fields.map Prod.fst := by
  induction fields with
  | nil => simp [insert]
  | cons field fields ih =>
    obtain ⟨k, v⟩ := field
    by_cases hk : k = key
    · simp [insert, hk]
    · simp only [insert, hk, if_false, List.map_cons, List.mem_cons, ih]
      tauto

theorem nodup_insert {value : Json} (h : (fields.map Prod.fst).Nodup) :
    ((insert key value fields).map Prod.fst).Nodup := by
  induction fields with
  | nil => simp [insert]
  | cons field fields ih =>
    obtain ⟨k, v⟩ := field
    simp only [List.map_cons, List.nodup_cons] at h
    by_cases hk : k = key
    · subst hk
      rw [insert, if_pos rfl, List.map_cons, List.nodup_cons]
      exact h
    · rw [insert, if_neg hk, List.map_cons, List.nodup_cons, mem_keys_insert, not_or]
      exact ⟨⟨hk, h.1⟩, ih h.2⟩

theorem nodup_remove (h : (fields.map Prod.fst).Nodup) :
    ((remove key fields).map Prod.fst).Nodup :=
  h.sublist (List.filter_sublist.map _)

end Fields

/-! ## Reading -/

def readF64 : Json → Except Error F64
  | .number n => .ok n.asF64
  | _ => .error .invalidType

def readU64 : Json → Except Error UInt64
  | .number (.posInt n) => .ok n
  | _ => .error .invalidType

def readU32 : Json → Except Error UInt32
  | .number (.posInt n) => if n.toNat < 2 ^ 32 then .ok (UInt32.ofNat n.toNat) else .error .invalidType
  | _ => .error .invalidType

def readU8 : Json → Except Error UInt8
  | .number (.posInt n) => if n.toNat < 2 ^ 8 then .ok (UInt8.ofNat n.toNat) else .error .invalidType
  | _ => .error .invalidType

def readString : Json → Except Error String
  | .string s => .ok s
  | _ => .error .invalidType

def readBool : Json → Except Error Bool
  | .bool b => .ok b
  | _ => .error .invalidType

def readOption {α : Type} (read : Json → Except Error α) : Json → Except Error (Option α)
  | .null => .ok none
  | v => some <$> read v

def readList {α : Type} (read : Json → Except Error α) : Json → Except Error (List α)
  | .array items => items.mapM read
  | _ => .error .invalidType

/-- A variant without data: its name, or an object of that name and `null`. -/
def readVariant {α : Type} (variants : List (String × α)) : Json → Except Error α
  | .string s => pick s
  | .object [(s, .null)] => pick s
  | _ => .error .invalidType
where
  pick (s : String) : Except Error α :=
    match variants.find? fun variant => variant.1 = s with
    | some variant => .ok variant.2
    | none => .error .unknownVariant

def struct (names : List String) : Json → Except Error (String → Option Json)
  | .object fields => .ok (Fields.get fields)
  | .array items =>
    if items.length ≤ names.length then .ok (Fields.get (names.zip items)) else .error .invalidLength
  | _ => .error .invalidType

def required {α : Type} (fields : String → Option Json) (name : String) (read : Json → Except Error α) :
    Except Error α :=
  match fields name with
  | some v => read v
  | none => .error (.missingField name)

/-- A field with `#[serde(default)]`. -/
def defaulted {α : Type} (fields : String → Option Json) (name : String) (default : α)
    (read : Json → Except Error α) : Except Error α :=
  match fields name with
  | some v => read v
  | none => .ok default

end Json

def F64.toJson (x : F64) : Json :=
  if h : x.isFinite = true then .number (.float ⟨x, h⟩) else .null

namespace Json

theorem Number.asF64_ofInt {k : Int} (hk : F64.Small k) : (Number.ofInt k).asF64 = F64.ofInt k := by
  have hlt : k.natAbs < 2 ^ 53 := hk
  unfold Number.ofInt
  split_ifs with h
  · have : k.toNat < UInt64.size := Nat.lt_trans (by omega) (by decide : 2 ^ 53 < UInt64.size)
    rw [Number.asF64, UInt64.toNat_ofNat_of_lt' this, F64.ofNat, Int.toNat_of_nonneg h]
  · rw [Number.asF64, Int64.toInt_ofInt_of_le (by omega) (by omega)]

theorem mapM_eq_ok {α β ε : Type} {read : α → Except ε β} {ok : α → Prop} {value : α → β}
    (h : ∀ a b, read a = .ok b ↔ ok a ∧ b = value a) (list : List α) (values : List β) :
    list.mapM read = .ok values ↔ (∀ a ∈ list, ok a) ∧ values = list.map value := by
  induction list generalizing values with
  | nil => simp [eq_comm]
  | cons a list ih =>
    simp only [List.mapM_cons, Result.bind_eq_ok, h, ih, Result.pure_eq_ok, Except.ok.injEq]
    constructor
    · rintro ⟨b, ⟨ha, rfl⟩, bs, ⟨hl, rfl⟩, rfl⟩
      exact ⟨by simpa [ha] using hl, rfl⟩
    · rintro ⟨hok, rfl⟩
      exact ⟨_, ⟨hok a (by simp), rfl⟩, _, ⟨fun x hx => hok x (by simp [hx]), rfl⟩, rfl⟩

theorem defaulted_list_eq_ok {α β : Type} {fields : String → Option Json} {name : String} {read : Json → Except Error β}
    {wanted : Option α} {entries : α → List Json} {P : α → Prop} {f : α → List β}
    (h : fields name = wanted.map fun a => .array (entries a))
    (hread : ∀ a list, readList read (.array (entries a)) = .ok list ↔ P a ∧ list = f a) (o : Option (List β)) :
    defaulted fields name none (readOption (readList read)) = .ok o ↔ (∀ a, wanted = some a → P a) ∧ o = wanted.map f := by
  cases wanted with
  | none => simp [defaulted, show fields name = none from h, eq_comm (a := o)]
  | some a =>
    have hsome : readOption (readList read) (.array (entries a)) = some <$> readList read (.array (entries a)) := rfl
    simp only [defaulted, h, Option.map_some, hsome, Option.some.injEq, forall_eq']
    cases hl : readList read (.array (entries a)) with
    | error e =>
      have hnot : ¬ P a := fun hp => nomatch hl.symm.trans ((hread a _).mpr ⟨hp, rfl⟩)
      simp [hnot, Functor.map, Except.map]
    | ok list =>
      obtain ⟨hp, rfl⟩ := (hread a list).mp hl
      simp only [Functor.map, Except.map, Except.ok.injEq]
      exact ⟨fun ho => ⟨hp, ho.symm⟩, fun ho => ho.2.symm⟩

end Json
