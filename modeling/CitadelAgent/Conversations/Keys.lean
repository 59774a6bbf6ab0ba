import CitadelAgent.Conversations.Types

/-!
# Where each record lives

`store.rs`: the keys of a conversation's metadata and pages. Keys are scoped by the owning account; records written
before that are under the peer alone.

* `Place` : the records a conversation can have, `Place.name` the key of each;
* `Place.name_inj` : no two of them share a key;
* `Place.not_endsWith_metadata` : the key of a page does not look like the key of a metadata record.
-/

namespace CitadelAgent.Conversations

def PAGINATED_PREFIX : String := "msgs_with_peer_"

def scopedKey (own peer : Cid) : String :=
  PAGINATED_PREFIX ++ toString own.toNat ++ "_with_" ++ toString peer.toNat

def legacyKey (peer : Cid) : String := PAGINATED_PREFIX ++ toString peer.toNat

/-- `format!("{}_metadata", base)`. -/
def metadataKey (base : String) : String := base ++ "_metadata"

/-- `format!("{}_{number}", base)`. -/
def pageKey (base : String) (number : UInt32) : String := base ++ "_" ++ toString number.toNat

/-- A record of the store: `owner = none` is the legacy key, `page = none` the metadata. -/
@[ext]
structure Place where
  owner : Option Cid
  peer : Cid
  page : Option UInt32
  deriving DecidableEq

namespace Place

def base (p : Place) : String :=
  match p.owner with
  | some own => scopedKey own p.peer
  | none => legacyKey p.peer

def name (p : Place) : String :=
  match p.page with
  | some number => pageKey p.base number
  | none => metadataKey p.base

end Place

/-! ## Decimal numbers inside a key -/

def digits (n : Nat) : List Char := (toString n).toList

theorem isDigit_of_mem_digits {n : Nat} {c : Char} (h : c ∈ digits n) : c.isDigit = true := by
  rw [digits, Nat.toString_eq_repr, Nat.toList_repr] at h
  exact Nat.isDigit_of_mem_toDigits (by decide : 0 < 10) (by decide : 10 ≤ 10) h

theorem digits_ne_nil (n : Nat) : digits n ≠ [] := by
  rw [digits, Nat.toString_eq_repr, Nat.toList_repr]
  exact Nat.toDigits_ne_nil

theorem digits_injective : Function.Injective digits := by
  intro m n h
  rw [digits, digits, Nat.toString_eq_repr, Nat.toString_eq_repr, Nat.toList_repr, Nat.toList_repr] at h
  rw [← Nat.ofDigitChars_ten_toDigits (n := m), h, Nat.ofDigitChars_ten_toDigits]

def Stops (l : List Char) : Prop := ∀ c ∈ l.head?, c.isDigit = false

theorem digits_append_inj {m n : Nat} {x y : List Char} (hx : Stops x) (hy : Stops y)
    (h : digits m ++ x = digits n ++ y) : m = n ∧ x = y := by
  have htake : ∀ (k : Nat) {z : List Char}, Stops z → (digits k ++ z).takeWhile Char.isDigit = digits k := by
    intro k z hz
    rw [List.takeWhile_append_of_pos fun c hc => isDigit_of_mem_digits hc]
    cases z with
    | nil => simp
    | cons c z => simp [hz c (by simp)]
  have hd : digits m = digits n := by rw [← htake m hx, h, htake n hy]
  rw [hd] at h
  exact ⟨digits_injective hd, List.append_cancel_left h⟩

/-! ## No two records share a key -/

namespace Place

def tail (p : Place) : List Char :=
  match p.page with
  | some number => '_' :: digits number.toNat
  | none => '_' :: "metadata".toList

def ownerTail (p : Place) : List Char := '_' :: ("with_".toList ++ (digits p.peer.toNat ++ p.tail))

theorem toList_name_scoped {p : Place} {own : Cid} (h : p.owner = some own) :
    p.name.toList = PAGINATED_PREFIX.toList ++ (digits own.toNat ++ p.ownerTail) := by
  cases hp : p.page with
  | none => simp [name, base, h, hp, metadataKey, scopedKey, ownerTail, tail, digits, String.toList_append]
  | some n => simp [name, base, h, hp, pageKey, scopedKey, ownerTail, tail, digits, String.toList_append]

theorem toList_name_legacy {p : Place} (h : p.owner = none) :
    p.name.toList = PAGINATED_PREFIX.toList ++ (digits p.peer.toNat ++ p.tail) := by
  cases hp : p.page with
  | none => simp [name, base, h, hp, metadataKey, legacyKey, tail, digits, String.toList_append]
  | some n => simp [name, base, h, hp, pageKey, legacyKey, tail, digits, String.toList_append]

theorem stops_underscore (x : List Char) : Stops ('_' :: x) := by
  intro c hc
  obtain rfl : '_' = c := by simpa using hc
  decide

theorem stops_tail (p : Place) : Stops p.tail := by
  unfold tail
  split <;> exact stops_underscore _

theorem stops_ownerTail (p : Place) : Stops p.ownerTail := stops_underscore _

theorem not_mem_digits {c : Char} (h : c.isDigit = false) (n : Nat) : c ∉ digits n := by
  intro hc
  simp [isDigit_of_mem_digits hc] at h

theorem page_eq_of_tail_eq {p q : Place} (h : p.tail = q.tail) : p.page = q.page := by
  unfold tail at h
  cases hp : p.page with
  | none =>
    cases hq : q.page with
    | none => rfl
    | some n =>
      simp only [hp, hq, List.cons.injEq, true_and] at h
      exact absurd (h ▸ by simp) (not_mem_digits (by decide : ('m' : Char).isDigit = false) n.toNat)
  | some m =>
    cases hq : q.page with
    | none =>
      simp only [hp, hq, List.cons.injEq, true_and] at h
      exact absurd (h ▸ by simp) (not_mem_digits (by decide : ('m' : Char).isDigit = false) m.toNat)
    | some n =>
      simp only [hp, hq, List.cons.injEq, true_and] at h
      rw [UInt32.toNat_inj.mp (digits_injective h)]

theorem ownerTail_ne_tail (p q : Place) : p.ownerTail ≠ q.tail := by
  intro h
  unfold ownerTail tail at h
  cases hq : q.page with
  | none =>
    simp only [hq] at h
    have h1 := congrArg (fun l => l[1]?) h
    simp at h1
  | some n =>
    simp only [hq, List.cons.injEq, true_and] at h
    exact absurd (h ▸ by simp) (not_mem_digits (by decide : ('w' : Char).isDigit = false) n.toNat)

theorem name_injective : Function.Injective name := by
  intro p q h
  have hl := congrArg String.toList h
  cases hp : p.owner with
  | none =>
    cases hq : q.owner with
    | none =>
      rw [toList_name_legacy hp, toList_name_legacy hq] at hl
      obtain ⟨hpeer, htail⟩ := digits_append_inj p.stops_tail q.stops_tail (List.append_cancel_left hl)
      exact Place.ext (hp.trans hq.symm) (UInt64.toNat_inj.mp hpeer) (page_eq_of_tail_eq htail)
    | some own =>
      rw [toList_name_legacy hp, toList_name_scoped hq] at hl
      obtain ⟨-, htail⟩ := digits_append_inj p.stops_tail q.stops_ownerTail (List.append_cancel_left hl)
      exact absurd htail.symm (ownerTail_ne_tail q p)
  | some own =>
    cases hq : q.owner with
    | none =>
      rw [toList_name_scoped hp, toList_name_legacy hq] at hl
      obtain ⟨-, htail⟩ := digits_append_inj p.stops_ownerTail q.stops_tail (List.append_cancel_left hl)
      exact absurd htail (ownerTail_ne_tail p q)
    | some own' =>
      rw [toList_name_scoped hp, toList_name_scoped hq] at hl
      obtain ⟨hown, hrest⟩ := digits_append_inj p.stops_ownerTail q.stops_ownerTail (List.append_cancel_left hl)
      simp only [ownerTail, List.cons.injEq, true_and] at hrest
      obtain ⟨hpeer, htail⟩ := digits_append_inj p.stops_tail q.stops_tail (List.append_cancel_left hrest)
      obtain rfl := UInt64.toNat_inj.mp hown
      exact Place.ext (hp.trans hq.symm) (UInt64.toNat_inj.mp hpeer) (page_eq_of_tail_eq htail)

@[simp] theorem name_inj {p q : Place} : p.name = q.name ↔ p = q := name_injective.eq_iff

end Place

/-! ## The tests `list` makes on a key -/

def startsWith (key start : String) : Bool := start.toList.isPrefixOf key.toList

def endsWith (key ending : String) : Bool := ending.toList.isSuffixOf key.toList

/-- `key.contains(part)`. -/
def containsText (key part : String) : Bool := key.toList.tails.any fun rest => part.toList.isPrefixOf rest

theorem Place.not_endsWith_metadata {p : Place} {number : UInt32} (h : p.page = some number) :
    endsWith p.name "_metadata" = false := by
  rw [endsWith, Bool.eq_false_iff]
  intro hs
  rw [List.isSuffixOf_iff_suffix] at hs
  have hlast : p.name.toList.getLast? = (digits number.toNat).getLast? := by
    have hname : p.name.toList = (p.base ++ "_").toList ++ digits number.toNat := by
      simp [name, h, pageKey, digits, String.toList_append]
    rw [hname, List.getLast?_append]
    cases hd : (digits number.toNat).getLast? with
    | none => exact absurd (List.getLast?_eq_none_iff.mp hd) (digits_ne_nil _)
    | some c => rfl
  obtain ⟨x, hx⟩ := hs
  rw [← hx, List.getLast?_append] at hlast
  have ha : 'a' ∈ digits number.toNat := List.mem_of_getLast? hlast.symm
  exact not_mem_digits (by decide) _ ha

end CitadelAgent.Conversations
