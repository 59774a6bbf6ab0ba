import CitadelAgent.Conversations.Cbor
import CitadelAgent.Lib.Result

/-!
# CBOR: what is written reads back

* `Value.Fits`, `Value.nesting` : the values the writer writes faithfully, and how deep they nest;
* `Reader.heads`, `headers` : the headers of a byte string, in the order the reader meets them;
* `value_write` : the reader gives back what the writer wrote, and stops where it stopped;
* `value_ok` : what the reader gives back fits, and is written back to the bytes read if their headers are canonical;
* `value_extends` : bytes after a value do not change its reading;
* `codec` : the four together, for `Value.decode`.
-/

namespace CitadelAgent.Conversations.Cbor
open BigEndian Result

/-! ## The values that fit -/

/-- The numbers below `capacity` are those a header of this width can carry. -/
def Width.capacity : Width → Nat
  | .inline => 24
  | .one => 2 ^ 8
  | .two => 2 ^ 16
  | .four => 2 ^ 32
  | .eight => 2 ^ 64

namespace Value

mutual

/-- Integer and map widths carry their numbers, and lengths are 64-bit. -/
def Fits : Value → Prop
  | .uint n w => n.toNat < w.capacity
  | .nint n w => n.toNat < w.capacity
  | .bytes b => b.length < 2 ^ 64
  | .text t => (utf8 t).length < 2 ^ 64
  | .array items => items.length < 2 ^ 64 ∧ FitsItems items
  | .map entries w => entries.length < w.capacity ∧ FitsEntries entries
  | .tag _ inner => inner.Fits
  | _ => True

def FitsItems : List Value → Prop
  | [] => True
  | item :: items => item.Fits ∧ FitsItems items

def FitsEntries : List (Value × Value) → Prop
  | [] => True
  | entry :: entries => entry.1.Fits ∧ entry.2.Fits ∧ FitsEntries entries

end

mutual

/-- How many values lie between this one and the deepest it holds. -/
def nesting : Value → Nat
  | .array items => nestingItems items
  | .map entries _ => nestingEntries entries
  | .tag _ inner => inner.nesting + 1
  | _ => 0

def nestingItems : List Value → Nat
  | [] => 0
  | item :: items => max (item.nesting + 1) (nestingItems items)

def nestingEntries : List (Value × Value) → Nat
  | [] => 0
  | entry :: entries => max (max (entry.1.nesting + 1) (entry.2.nesting + 1)) (nestingEntries entries)

end

end Value

/-! ## Headers -/

theorem minimal_capacity {n : Nat} (h : n < 2 ^ 64) : n < (minimal n).capacity := by
  unfold minimal
  split_ifs <;> simp only [Width.capacity] <;> omega

def infoOf (n : Nat) : Width → UInt8
  | .inline => UInt8.ofNat n
  | .one => 24
  | .two => 25
  | .four => 26
  | .eight => 27

def argBytes (n : Nat) : Width → List UInt8
  | .inline => []
  | .one => beBytes 1 n
  | .two => beBytes 2 n
  | .four => beBytes 4 n
  | .eight => beBytes 8 n

theorem head_eq (major n : Nat) (w : Width) :
    head major n w = (UInt8.ofNat major <<< 5 ||| infoOf n w) :: argBytes n w := by
  cases w <;> rfl

theorem initial_fields : ∀ m < 8, ∀ i < 32,
    (UInt8.ofNat m <<< 5 ||| UInt8.ofNat i) >>> 5 = UInt8.ofNat m ∧
      (UInt8.ofNat m <<< 5 ||| UInt8.ofNat i) &&& 0x1f = UInt8.ofNat i := by
  decide

set_option maxRecDepth 4000 in
theorem initial_split_nat : ∀ n < 256,
    UInt8.ofNat n >>> 5 <<< 5 ||| (UInt8.ofNat n &&& 0x1f) = UInt8.ofNat n ∧
      (UInt8.ofNat n &&& 0x1f).toNat < 32 ∧ (UInt8.ofNat n >>> 5).toNat < 8 := by
  decide

theorem initial_split (b : UInt8) :
    b >>> 5 <<< 5 ||| (b &&& 0x1f) = b ∧ (b &&& 0x1f).toNat < 32 ∧ (b >>> 5).toNat < 8 := by
  have h := initial_split_nat b.toNat b.toNat_lt
  rwa [UInt8.ofNat_toNat] at h

theorem infoOf_lt {n : Nat} {w : Width} (h : n < w.capacity) : (infoOf n w).toNat < 32 := by
  cases w with
  | inline =>
    have : n < 24 := h
    simp only [infoOf, UInt8.toNat_ofNat']
    omega
  | one | two | four | eight => simp [infoOf]

theorem initial_major {m n : Nat} {w : Width} (hm : m < 8) (h : n < w.capacity) :
    ((UInt8.ofNat m <<< 5 ||| infoOf n w) >>> 5).toNat = m ∧
      (UInt8.ofNat m <<< 5 ||| infoOf n w) &&& 0x1f = infoOf n w := by
  obtain ⟨hmajor, hinfo⟩ := initial_fields m hm (infoOf n w).toNat (infoOf_lt h)
  rw [UInt8.ofNat_toNat] at hmajor hinfo
  exact ⟨by rw [hmajor, UInt8.toNat_ofNat_of_lt' (Nat.lt_trans hm (by decide))], hinfo⟩

namespace Reader

theorem take_append (bs rest : List UInt8) (pos : Nat) :
    take bs.length ⟨bs ++ rest, pos⟩ = .ok (bs, ⟨rest, pos + bs.length⟩) := by
  simp [take]

theorem take_ok {n : Nat} {r r' : Reader} {bs : List UInt8} (h : r.take n = .ok (bs, r')) :
    bs.length = n ∧ r.left = bs ++ r'.left := by
  unfold take at h
  split_ifs at h with hn
  simp only [Except.ok.injEq, Prod.mk.injEq] at h
  obtain ⟨rfl, rfl⟩ := h
  exact ⟨by simp [hn], by simp⟩

theorem byte_cons (b : UInt8) (rest : List UInt8) (pos : Nat) :
    byte ⟨b :: rest, pos⟩ = .ok (b, ⟨rest, pos + 1⟩) := by
  simp [byte, take, ofBe]

theorem byte_ok {r r' : Reader} {b : UInt8} (h : r.byte = .ok (b, r')) : r.left = b :: r'.left := by
  obtain ⟨⟨bs, r₁⟩, ht, hp⟩ := bind_eq_ok.mp h
  obtain ⟨hlen, hleft⟩ := take_ok ht
  obtain ⟨x, rfl⟩ := List.length_eq_one_iff.mp hlen
  cases hp
  simpa [ofBe] using hleft

theorem word_beBytes {k n : Nat} (w : Width) (h : n < 256 ^ k) (rest : List UInt8) (pos : Nat) :
    word k w ⟨beBytes k n ++ rest, pos⟩ = .ok ((n, w), ⟨rest, pos + k⟩) := by
  have ht := take_append (beBytes k n) rest pos
  rw [length_beBytes] at ht
  simp [word, ht, ofBe_beBytes h]

theorem word_ok {k n : Nat} {w w' : Width} {r r' : Reader} (h : r.word k w = .ok ((n, w'), r')) :
    w' = w ∧ n < 256 ^ k ∧ r.left = beBytes k n ++ r'.left := by
  obtain ⟨⟨bs, r₁⟩, ht, hp⟩ := bind_eq_ok.mp h
  obtain ⟨rfl, hleft⟩ := take_ok ht
  cases hp
  exact ⟨rfl, ofBe_lt bs, by rw [beBytes_ofBe, hleft]⟩

theorem argument_argBytes {n : Nat} {w : Width} (h : n < w.capacity) (rest : List UInt8) (pos : Nat) :
    argument (infoOf n w).toNat ⟨argBytes n w ++ rest, pos⟩ =
      .ok ((n, w), ⟨rest, pos + (argBytes n w).length⟩) := by
  cases w with
  | inline =>
    have hn : n < 24 := h
    have hmod : n % 256 = n := by omega
    simp [argument, infoOf, argBytes, hn, hmod]
  | one => simpa [argument, infoOf, argBytes] using word_beBytes .one h rest pos
  | two => simpa [argument, infoOf, argBytes] using word_beBytes .two (k := 2) h rest pos
  | four => simpa [argument, infoOf, argBytes] using word_beBytes .four (k := 4) h rest pos
  | eight => simpa [argument, infoOf, argBytes] using word_beBytes .eight (k := 8) h rest pos

theorem argument_ok {info : UInt8} {n : Nat} {w : Width} {r r' : Reader}
    (h : r.argument info.toNat = .ok ((n, w), r')) :
    info = infoOf n w ∧ n < w.capacity ∧ r.left = argBytes n w ++ r'.left := by
  unfold argument at h
  split_ifs at h with hi
  · simp only [Except.ok.injEq, Prod.mk.injEq] at h
    obtain ⟨⟨rfl, rfl⟩, rfl⟩ := h
    exact ⟨by simp [infoOf], hi, rfl⟩
  split at h
  case h_1 he => obtain ⟨rfl, hn, hl⟩ := word_ok h; exact ⟨UInt8.toNat_inj.mp he, hn, hl⟩
  case h_2 he => obtain ⟨rfl, hn, hl⟩ := word_ok h; exact ⟨UInt8.toNat_inj.mp he, hn, hl⟩
  case h_3 he => obtain ⟨rfl, hn, hl⟩ := word_ok h; exact ⟨UInt8.toNat_inj.mp he, hn, hl⟩
  case h_4 he => obtain ⟨rfl, hn, hl⟩ := word_ok h; exact ⟨UInt8.toNat_inj.mp he, hn, hl⟩
  case h_5 => cases h

theorem byte_argument_head {m n : Nat} {w : Width} (hm : m < 8) (h : n < w.capacity) (rest : List UInt8) (pos : Nat) :
    ∃ initial r, byte ⟨head m n w ++ rest, pos⟩ = .ok (initial, r) ∧ (initial >>> 5).toNat = m ∧
      argument (initial &&& 0x1f).toNat r = .ok ((n, w), ⟨rest, pos + (head m n w).length⟩) := by
  obtain ⟨hmajor, hinfo⟩ := initial_major hm h
  refine ⟨_, _, by rw [head_eq, List.cons_append, byte_cons], hmajor, ?_⟩
  rw [hinfo, argument_argBytes h, head_eq, List.length_cons, Nat.add_assoc, Nat.add_comm 1]

theorem left_of_byte_argument {r r₁ r₂ : Reader} {initial : UInt8} {n : Nat} {w : Width}
    (hb : r.byte = .ok (initial, r₁)) (ha : r₁.argument (initial &&& 0x1f).toNat = .ok ((n, w), r₂)) :
    n < w.capacity ∧ r.left = head (initial >>> 5).toNat n w ++ r₂.left := by
  obtain ⟨hinfo, hn, hleft⟩ := argument_ok ha
  refine ⟨hn, ?_⟩
  rw [byte_ok hb, hleft, head_eq, ← hinfo, UInt8.ofNat_toNat, (initial_split initial).1, List.cons_append]

theorem length_ok {info n : Nat} {w : Width} {r r' : Reader} (h : r.length info = .ok ((n, w), r')) :
    r.argument info = .ok ((n, w), r') ∧ n ≤ r'.left.length := by
  obtain ⟨⟨⟨n₁, w₁⟩, r₁⟩, ha, hp⟩ := bind_eq_ok.mp h
  by_cases hn : n₁ > r₁.left.length
  · simp [hn] at hp
  · simp only [hn, ↓reduceIte, pure_eq_ok] at hp
    cases hp
    exact ⟨ha, by omega⟩

theorem length_of_argument {info n : Nat} {w : Width} {r r' : Reader} (h : r.argument info = .ok ((n, w), r'))
    (hn : n ≤ r'.left.length) : r.length info = .ok ((n, w), r') := by
  simp [length, h, show ¬ n > r'.left.length by omega]

end Reader

/-! ## Text -/

theorem fromUtf8_utf8 (t : String) : fromUtf8 (utf8 t) = some t := by
  simp [fromUtf8, utf8, String.fromUTF8?, t.isValidUTF8, String.fromUTF8]

theorem utf8_of_fromUtf8 {bs : List UInt8} {t : String} (h : fromUtf8 bs = some t) : utf8 t = bs := by
  unfold fromUtf8 String.fromUTF8? at h
  split_ifs at h with hv
  cases h
  simp [utf8, String.fromUTF8]

/-! ## The headers of a byte string -/

inductive Head
  | sized (major n : Nat) (w : Width)
  | simple (info : Nat)

/-- Byte strings, texts, arrays and tags have minimal headers; floats are neither half nor single precision. -/
def Head.Canonical : Head → Prop
  | .sized major n w => major = 2 ∨ major = 3 ∨ major = 4 ∨ major = 6 → w = minimal n
  | .simple info => info ≠ 25 ∧ info ≠ 26

instance : DecidablePred Head.Canonical
  | .sized major n w =>
    inferInstanceAs (Decidable (major = 2 ∨ major = 3 ∨ major = 4 ∨ major = 6 → w = minimal n))
  | .simple info => inferInstanceAs (Decidable (info ≠ 25 ∧ info ≠ 26))

/-- How many bytes follow the initial byte of a simple value or float. -/
def payload : Nat → Nat
  | 25 => 2
  | 26 => 4
  | 27 => 8
  | _ => 0

namespace Reader

def headsPair (read : Reader → Except DecodeError (List Head × Reader)) (r : Reader) :
    Except DecodeError (List Head × Reader) := do
  let (key, r) ← read r
  let (value, r) ← read r
  return (key ++ value, r)

/-- The headers inside a value of major type `major` and argument `n`, one list for each value it holds. -/
def headsWithin (read : Reader → Except DecodeError (List Head × Reader)) (major n : Nat) (r : Reader) :
    Except DecodeError (List (List Head) × Reader) :=
  match major with
  | 2 | 3 => do
    let (_, r) ← r.take n
    return ([], r)
  | 4 => many read n r
  | 5 => many (headsPair read) n r
  | 6 => many read 1 r
  | _ => .ok ([], r)

/-- The headers of one value, outermost first, in the order they stand. -/
def heads : Nat → Reader → Except DecodeError (List Head × Reader)
  | 0, _ => .error .nestedTooDeeply
  | levels + 1, r => do
    let (initial, r) ← r.byte
    let info := (initial &&& 0x1f).toNat
    let major := (initial >>> 5).toNat
    if major = 7 then
      let (_, r) ← r.take (payload info)
      return ([.simple info], r)
    else
      let ((n, w), r) ← r.argument info
      let (within, r) ← headsWithin (heads levels) major n r
      return (.sized major n w :: within.flatten, r)

end Reader

def headers (b : List UInt8) : List Head :=
  match Reader.heads (MAX_DEPTH + 1) ⟨b, 0⟩ with
  | .ok (hs, _) => hs
  | .error _ => []

/-! ## Reading what was written -/

theorem head_length_pos (major n : Nat) (w : Width) : 0 < (head major n w).length := by
  rw [head_eq]
  exact Nat.succ_pos _

namespace Value

theorem write_length_pos (v : Value) : 0 < v.write.length := by
  cases v with
  | bool b => cases b <;> simp [write]
  | null | undefined | float f => simp [write]
  | uint n w | nint n w => simpa [write] using head_length_pos _ _ _
  | bytes b | text t | array items | map entries w | tag n inner =>
    simp only [write, List.length_append]
    have := head_length_pos
    exact Nat.add_pos_left (this _ _ _) _

theorem length_le_writeItems (items : List Value) : items.length ≤ (writeItems items).length := by
  induction items with
  | nil => simp
  | cons item items ih =>
    have := item.write_length_pos
    simp only [writeItems, List.length_cons, List.length_append]
    omega

theorem writeItems_append (items items' : List Value) :
    writeItems (items ++ items') = writeItems items ++ writeItems items' := by
  induction items with
  | nil => rfl
  | cons item items ih => simp [writeItems, ih]

theorem length_le_writeEntries (entries : List (Value × Value)) : entries.length ≤ (writeEntries entries).length := by
  induction entries with
  | nil => simp
  | cons entry entries ih =>
    have := entry.1.write_length_pos
    simp only [writeEntries, List.length_cons, List.length_append]
    omega

theorem value_head {m n : Nat} {w : Width} (hm : m < 7) (h : n < w.capacity) (levels : Nat) (rest : List UInt8)
    (pos : Nat) :
    ∃ info r, Reader.argument info r = .ok ((n, w), ⟨rest, pos + (head m n w).length⟩) ∧
      Reader.value (levels + 1) ⟨head m n w ++ rest, pos⟩ =
        Reader.content (Reader.value levels) m info r ∧
      Reader.heads (levels + 1) ⟨head m n w ++ rest, pos⟩ = (do
        let (within, r) ← Reader.headsWithin (Reader.heads levels) m n
          ⟨rest, pos + (head m n w).length⟩
        return (.sized m n w :: within.flatten, r)) := by
  obtain ⟨initial, r, hb, hmajor, ha⟩ := Reader.byte_argument_head (by omega : m < 8) h rest pos
  have hne : m ≠ 7 := by omega
  refine ⟨_, r, ha, ?_, ?_⟩
  · simp only [Reader.value, hb, ok_bind, hmajor]
  · simp only [Reader.heads, hb, ok_bind, hmajor, hne, ↓reduceIte, ha]

/-- Both readers read `v` and its headers off its written form, and these are canonical. -/
def ReadsBack (levels : Nat) (v : Value) : Prop :=
  ∀ rest pos, Reader.value levels ⟨v.write ++ rest, pos⟩ = .ok (v, ⟨rest, pos + v.write.length⟩) ∧
    ∃ hs, Reader.heads levels ⟨v.write ++ rest, pos⟩ = .ok (hs, ⟨rest, pos + v.write.length⟩) ∧
      ∀ h ∈ hs, h.Canonical

theorem items_readBack {levels : Nat} {items : List Value} (h : ∀ v ∈ items, ReadsBack levels v) (rest : List UInt8)
    (pos : Nat) :
    Reader.many (Reader.value levels) items.length ⟨writeItems items ++ rest, pos⟩ =
      .ok (items, ⟨rest, pos + (writeItems items).length⟩) ∧
    ∃ hss, Reader.many (Reader.heads levels) items.length ⟨writeItems items ++ rest, pos⟩ =
      .ok (hss, ⟨rest, pos + (writeItems items).length⟩) ∧ ∀ h ∈ hss.flatten, h.Canonical := by
  induction items generalizing pos with
  | nil => exact ⟨by simp [writeItems, Reader.many], [], by simp [writeItems, Reader.many], by simp⟩
  | cons v items ih =>
    obtain ⟨hv, hs, hhs, hc⟩ := h v (by simp) (writeItems items ++ rest) pos
    obtain ⟨hi, hss, hhss, hcs⟩ := ih (fun x hx => h x (by simp [hx])) (pos + v.write.length)
    refine ⟨?_, hs :: hss, ?_, ?_⟩
    · simp [writeItems, Reader.many, hv, hi, Nat.add_assoc]
    · simp [writeItems, Reader.many, hhs, hhss, Nat.add_assoc]
    · simp only [List.flatten_cons, List.mem_append]
      rintro x (hx | hx)
      · exact hc x hx
      · exact hcs x hx

theorem entries_readBack {levels : Nat} {entries : List (Value × Value)}
    (h : ∀ e ∈ entries, ReadsBack levels e.1 ∧ ReadsBack levels e.2) (rest : List UInt8) (pos : Nat) :
    Reader.many (Reader.entry (Reader.value levels)) entries.length ⟨writeEntries entries ++ rest, pos⟩ =
      .ok (entries, ⟨rest, pos + (writeEntries entries).length⟩) ∧
    ∃ hss, Reader.many (Reader.headsPair (Reader.heads levels)) entries.length ⟨writeEntries entries ++ rest, pos⟩ =
      .ok (hss, ⟨rest, pos + (writeEntries entries).length⟩) ∧ ∀ h ∈ hss.flatten, h.Canonical := by
  induction entries generalizing pos with
  | nil => exact ⟨by simp [writeEntries, Reader.many], [], by simp [writeEntries, Reader.many], by simp⟩
  | cons e entries ih =>
    obtain ⟨hk, ks, hks, hck⟩ := (h e (by simp)).1 (e.2.write ++ (writeEntries entries ++ rest)) pos
    obtain ⟨hv, vs, hvs, hcv⟩ := (h e (by simp)).2 (writeEntries entries ++ rest) (pos + e.1.write.length)
    obtain ⟨hi, hss, hhss, hcs⟩ :=
      ih (fun x hx => h x (by simp [hx])) (pos + e.1.write.length + e.2.write.length)
    refine ⟨?_, (ks ++ vs) :: hss, ?_, ?_⟩
    · simp [writeEntries, Reader.many, Reader.entry, hk, hv, hi]
      omega
    · simp [writeEntries, Reader.many, Reader.headsPair, hks, hvs, hhss]
      omega
    · simp only [List.flatten_cons, List.mem_append]
      rintro x ((hx | hx) | hx)
      · exact hck x hx
      · exact hcv x hx
      · exact hcs x hx

theorem FitsItems.mem {items : List Value} (h : FitsItems items) : ∀ v ∈ items, v.Fits := by
  induction items with
  | nil => simp
  | cons x xs ih =>
    simp only [FitsItems] at h
    simpa [h.1] using ih h.2

theorem FitsEntries.mem {entries : List (Value × Value)} (h : FitsEntries entries) :
    ∀ e ∈ entries, e.1.Fits ∧ e.2.Fits := by
  induction entries with
  | nil => simp
  | cons x xs ih =>
    simp only [FitsEntries] at h
    intro e he
    rcases List.mem_cons.mp he with rfl | he
    · exact ⟨h.1, h.2.1⟩
    · exact ih h.2.2 e he

theorem nesting_lt_of_mem {items : List Value} {levels : Nat} (h : nestingItems items < levels + 1) :
    ∀ v ∈ items, v.nesting < levels := by
  induction items with
  | nil => simp
  | cons x xs ih =>
    simp only [nestingItems] at h
    intro v hv
    rcases List.mem_cons.mp hv with rfl | hv
    · omega
    · exact ih (by omega) v hv

theorem nesting_lt_of_mem_entries {entries : List (Value × Value)} {levels : Nat}
    (h : nestingEntries entries < levels + 1) : ∀ e ∈ entries, e.1.nesting < levels ∧ e.2.nesting < levels := by
  induction entries with
  | nil => simp
  | cons x xs ih =>
    simp only [nestingEntries] at h
    intro e he
    rcases List.mem_cons.mp he with rfl | he
    · omega
    · exact ih (by omega) e he

theorem simple_readsBack (levels : Nat) {initial : UInt8} {payloadBytes : List UInt8} {v : Value}
    (hw : v.write = initial :: payloadBytes) (hmajor : (initial >>> 5).toNat = 7)
    (hlen : payloadBytes.length = payload (initial &&& 0x1f).toNat)
    (hinfo : (Head.simple (initial &&& 0x1f).toNat).Canonical)
    (hv : ∀ rest pos, Reader.simple (initial &&& 0x1f).toNat ⟨payloadBytes ++ rest, pos⟩ =
      .ok (v, ⟨rest, pos + payloadBytes.length⟩)) : ReadsBack (levels + 1) v := by
  intro rest pos
  have ht := Reader.take_append payloadBytes rest (pos + 1)
  rw [hw, List.cons_append]
  refine ⟨?_, [.simple (initial &&& 0x1f).toNat], ?_, by simpa using hinfo⟩
  · simp only [Reader.value, Reader.byte_cons, ok_bind, hmajor, Reader.content, hv, List.length_cons]
    rw [Nat.add_assoc, Nat.add_comm 1]
  · rw [hlen] at ht
    simp only [Reader.heads, Reader.byte_cons, ok_bind, hmajor, ↓reduceIte, ht, pure_eq_ok, List.length_cons, hlen]
    rw [Nat.add_assoc, Nat.add_comm 1]

theorem sized_readsBack {levels m n : Nat} {w : Width} (hm : m < 7) (hn : n < w.capacity)
    (hc : m = 2 ∨ m = 3 ∨ m = 4 ∨ m = 6 → w = minimal n) {body : List UInt8} {v : Value}
    (hw : v.write = head m n w ++ body)
    (hv : ∀ rest pos info r, Reader.argument info r = .ok ((n, w), ⟨body ++ rest, pos⟩) →
      Reader.content (Reader.value levels) m info r = .ok (v, ⟨rest, pos + body.length⟩))
    (hh : ∀ rest pos, ∃ hss, Reader.headsWithin (Reader.heads levels) m n ⟨body ++ rest, pos⟩ =
      .ok (hss, ⟨rest, pos + body.length⟩) ∧ ∀ h ∈ hss.flatten, h.Canonical) : ReadsBack (levels + 1) v := by
  intro rest pos
  obtain ⟨info, r, ha, hv', hh'⟩ := value_head hm hn levels (body ++ rest) pos
  obtain ⟨hss, hwithin, hcs⟩ := hh rest (pos + (head m n w).length)
  rw [hw, List.append_assoc, List.length_append, ← Nat.add_assoc]
  refine ⟨by rw [hv', hv _ _ _ _ ha], .sized m n w :: hss.flatten, by simp [hh', hwithin], ?_⟩
  intro h hmem
  rcases List.mem_cons.mp hmem with rfl | hmem
  · exact hc
  · exact hcs h hmem

theorem value_write {levels : Nat} {v : Value} (hf : v.Fits) (hn : v.nesting < levels) : ReadsBack levels v := by
  induction levels generalizing v with
  | zero => omega
  | succ levels ih =>
    cases v with
    | uint n w =>
      refine sized_readsBack (m := 0) (by omega) hf (by omega) (List.append_nil _).symm ?_ ?_
      · intro rest pos info r ha
        simp [Reader.content, ha]
      · exact fun rest pos => ⟨[], by simp [Reader.headsWithin], by simp⟩
    | nint n w =>
      refine sized_readsBack (m := 1) (by omega) hf (by omega) (List.append_nil _).symm ?_ ?_
      · intro rest pos info r ha
        simp [Reader.content, ha]
      · exact fun rest pos => ⟨[], by simp [Reader.headsWithin], by simp⟩
    | bytes b =>
      refine sized_readsBack (m := 2) (by omega) (minimal_capacity hf) (fun _ => rfl) rfl ?_ ?_
      · intro rest pos info r ha
        have hl := Reader.length_of_argument ha (by simp)
        simp [Reader.content, hl, Reader.take_append]
      · exact fun rest pos => ⟨[], by simp [Reader.headsWithin, Reader.take_append], by simp⟩
    | text t =>
      refine sized_readsBack (m := 3) (by omega) (minimal_capacity hf) (fun _ => rfl) rfl ?_ ?_
      · intro rest pos info r ha
        have hl := Reader.length_of_argument ha (by simp)
        simp [Reader.content, hl, Reader.take_append, fromUtf8_utf8]
      · exact fun rest pos => ⟨[], by simp [Reader.headsWithin, Reader.take_append], by simp⟩
    | array items =>
      have hitems : ∀ x ∈ items, ReadsBack levels x :=
        fun x hx => ih (hf.2.mem x hx) (nesting_lt_of_mem hn x hx)
      refine sized_readsBack (m := 4) (by omega) (minimal_capacity hf.1) (fun _ => rfl) rfl ?_ ?_
      · intro rest pos info r ha
        have hle := length_le_writeItems items
        have hl := Reader.length_of_argument ha (by simp; omega)
        simp [Reader.content, hl, (items_readBack hitems rest pos).1]
      · exact fun rest pos => (items_readBack hitems rest pos).2
    | map entries w =>
      have hentries : ∀ e ∈ entries, ReadsBack levels e.1 ∧ ReadsBack levels e.2 := fun e he =>
        have hd := nesting_lt_of_mem_entries hn e he
        ⟨ih (hf.2.mem e he).1 hd.1, ih (hf.2.mem e he).2 hd.2⟩
      refine sized_readsBack (m := 5) (by omega) hf.1 (by omega) rfl ?_ ?_
      · intro rest pos info r ha
        have hle := length_le_writeEntries entries
        have hl := Reader.length_of_argument ha (by simp; omega)
        simp [Reader.content, hl, (entries_readBack hentries rest pos).1]
      · exact fun rest pos => (entries_readBack hentries rest pos).2
    | tag n inner =>
      have hinner : ReadsBack levels inner := ih hf (Nat.lt_of_succ_lt_succ hn)
      refine sized_readsBack (m := 6) (by omega) (minimal_capacity n.toNat_lt) (fun _ => rfl) rfl ?_ ?_
      · intro rest pos info r ha
        simp [Reader.content, ha, (hinner rest pos).1]
      · intro rest pos
        obtain ⟨hs, hhs, hc⟩ := (hinner rest pos).2
        exact ⟨[hs], by simp [Reader.headsWithin, Reader.many, hhs], by simpa using hc⟩
    | bool b =>
      cases b with
      | false => exact simple_readsBack levels rfl rfl rfl (by decide) (fun _ _ => rfl)
      | true => exact simple_readsBack levels rfl rfl rfl (by decide) (fun _ _ => rfl)
    | null => exact simple_readsBack levels rfl rfl rfl (by decide) (fun _ _ => rfl)
    | undefined => exact simple_readsBack levels rfl rfl rfl (by decide) (fun _ _ => rfl)
    | float f =>
      have hlen : f.toBeBytes.length = 8 := by simp [F64.toBeBytes]
      refine @simple_readsBack levels 0xfb _ _ rfl rfl hlen (by decide) ?_
      intro rest pos
      have ht := Reader.take_append f.toBeBytes rest pos
      rw [hlen] at ht ⊢
      have hbits : F64.fromBeBytes f.toBeBytes = f := by
        simp [F64.fromBeBytes, F64.toBeBytes, ofBe_beBytes (k := 8) f.bits.toNat_lt]
      show Reader.simple 27 _ = _
      simp [Reader.simple, ht, hbits]

end Value

/-! ## What was read -/

namespace Reader

/-- What a successful read says: the value fits, and it is what stood there if the headers are canonical. -/
structure ReadOk (levels : Nat) (r : Reader) (v : Value) (r' : Reader) : Prop where
  fits : v.Fits
  nesting : v.nesting < levels
  heads : ∃ hs, heads levels r = .ok (hs, r') ∧ ((∀ h ∈ hs, h.Canonical) → r.left = v.write ++ r'.left)

theorem items_ok {levels : Nat} (hread : ∀ r v r', value levels r = .ok (v, r') → ReadOk levels r v r') {n : Nat}
    {r r' : Reader} {items : List Value} (h : many (value levels) n r = .ok (items, r')) :
    items.length = n ∧ Value.FitsItems items ∧ Value.nestingItems items < levels + 1 ∧
      ∃ hss, many (Reader.heads levels) n r = .ok (hss, r') ∧
        ((∀ h ∈ hss.flatten, h.Canonical) → r.left = Value.writeItems items ++ r'.left) := by
  induction n generalizing r items with
  | zero =>
    cases h
    exact ⟨rfl, trivial, Nat.succ_pos _, [], rfl, fun _ => rfl⟩
  | succ n ih =>
    obtain ⟨⟨v, r₁⟩, hv, h⟩ := bind_eq_ok.mp h
    obtain ⟨⟨vs, r₂⟩, hvs, h⟩ := bind_eq_ok.mp h
    cases h
    obtain ⟨hfit, hnest, hs, hhs, hw⟩ := hread _ _ _ hv
    obtain ⟨hlen, hfits, hnests, hss, hhss, hws⟩ := ih hvs
    refine ⟨by simp [hlen], ⟨hfit, hfits⟩, by simp only [Value.nestingItems]; omega, hs :: hss, ?_, ?_⟩
    · simp [many, hhs, hhss]
    · intro hc
      simp only [List.flatten_cons, List.mem_append] at hc
      rw [hw fun x hx => hc x (.inl hx), hws fun x hx => hc x (.inr hx), Value.writeItems, List.append_assoc]

theorem entries_ok {levels : Nat} (hread : ∀ r v r', value levels r = .ok (v, r') → ReadOk levels r v r') {n : Nat}
    {r r' : Reader} {entries : List (Value × Value)} (h : many (entry (value levels)) n r = .ok (entries, r')) :
    entries.length = n ∧ Value.FitsEntries entries ∧ Value.nestingEntries entries < levels + 1 ∧
      ∃ hss, many (headsPair (Reader.heads levels)) n r = .ok (hss, r') ∧
        ((∀ h ∈ hss.flatten, h.Canonical) → r.left = Value.writeEntries entries ++ r'.left) := by
  induction n generalizing r entries with
  | zero =>
    cases h
    exact ⟨rfl, trivial, Nat.succ_pos _, [], rfl, fun _ => rfl⟩
  | succ n ih =>
    obtain ⟨⟨e, r₃⟩, he, h⟩ := bind_eq_ok.mp h
    obtain ⟨⟨es, r₄⟩, hes, h⟩ := bind_eq_ok.mp h
    cases h
    obtain ⟨⟨k, r₁⟩, hk, he⟩ := bind_eq_ok.mp he
    obtain ⟨⟨v, r₂⟩, hv, he⟩ := bind_eq_ok.mp he
    cases he
    obtain ⟨hfk, hnk, ks, hks, hwk⟩ := hread _ _ _ hk
    obtain ⟨hfv, hnv, vs, hvs, hwv⟩ := hread _ _ _ hv
    obtain ⟨hlen, hfits, hnests, hss, hhss, hws⟩ := ih hes
    refine ⟨by simp [hlen], ⟨hfk, hfv, hfits⟩, by simp only [Value.nestingEntries]; omega, (ks ++ vs) :: hss, ?_, ?_⟩
    · simp [many, headsPair, hks, hvs, hhss]
    · intro hc
      simp only [List.flatten_cons, List.mem_append] at hc
      rw [hwk fun x hx => hc x (.inl (.inl hx)), hwv fun x hx => hc x (.inl (.inr hx)),
        hws fun x hx => hc x (.inr hx), Value.writeEntries]
      simp

theorem argument_lt {info : UInt8} {n : Nat} {w : Width} {r r' : Reader}
    (h : r.argument info.toNat = .ok ((n, w), r')) : n < 2 ^ 64 := by
  have hn := (argument_ok h).2.1
  cases w <;> simp only [Width.capacity] at hn <;> omega

theorem ReadOk.sized {levels major n : Nat} {w : Width} {r r₁ r₂ r' : Reader} {initial : UInt8} {v : Value}
    {hss : List (List Head)} (hb : r.byte = .ok (initial, r₁)) (hm : (initial >>> 5).toNat = major) (hne : major ≠ 7)
    (ha : r₁.argument (initial &&& 0x1f).toNat = .ok ((n, w), r₂)) (hfits : v.Fits) (hnest : v.nesting < levels + 1)
    (hwithin : headsWithin (Reader.heads levels) major n r₂ = .ok (hss, r'))
    (hwrite : (Head.sized major n w).Canonical → (∀ h ∈ hss.flatten, h.Canonical) →
      head major n w ++ r₂.left = v.write ++ r'.left) : ReadOk (levels + 1) r v r' := by
  refine ⟨hfits, hnest, .sized major n w :: hss.flatten, ?_, ?_⟩
  · simp only [Reader.heads, hb, ok_bind, hm, hne, ↓reduceIte, ha, hwithin, pure_eq_ok]
  · intro hc
    rw [(left_of_byte_argument hb ha).2, hm]
    exact hwrite (hc _ (by simp)) fun h hh => hc h (by simp [hh])

theorem toNat_ofNat_argument {info : UInt8} {n : Nat} {w : Width} {r r' : Reader}
    (h : r.argument info.toNat = .ok ((n, w), r')) : (UInt64.ofNat n).toNat = n :=
  UInt64.toNat_ofNat_of_lt' (argument_lt h)

theorem simple_ok {levels : Nat} {r r₁ r' : Reader} {initial : UInt8} {v : Value} (hb : r.byte = .ok (initial, r₁))
    (hm : (initial >>> 5).toNat = 7) (h : simple (initial &&& 0x1f).toNat r₁ = .ok (v, r')) :
    ReadOk (levels + 1) r v r' := by
  have hinitial : initial = (7 : UInt8) <<< 5 ||| (initial &&& 0x1f) := by
    have hmajor : initial >>> 5 = 7 := UInt8.toNat_inj.mp hm
    rw [← hmajor, (initial_split initial).1]
  have hleft := byte_ok hb
  generalize hi : (initial &&& 0x1f) = info at h hinitial
  have heads_eq : ∀ bs, r₁.take (payload info.toNat) = .ok (bs, r') →
      Reader.heads (levels + 1) r = .ok ([.simple info.toNat], r') := by
    intro bs ht
    simp only [Reader.heads, hb, ok_bind, hm, ↓reduceIte, hi, ht, pure_eq_ok]
  have take_zero : r₁.take 0 = .ok ([], r₁) := by simp [take]
  unfold simple at h
  split at h
  case h_1 he =>
    cases h
    obtain rfl : info = 20 := UInt8.toNat_inj.mp he
    exact ⟨trivial, Nat.succ_pos _, _, heads_eq _ take_zero, fun _ => by rw [hleft, hinitial]; rfl⟩
  case h_2 he =>
    cases h
    obtain rfl : info = 21 := UInt8.toNat_inj.mp he
    exact ⟨trivial, Nat.succ_pos _, _, heads_eq _ take_zero, fun _ => by rw [hleft, hinitial]; rfl⟩
  case h_3 he =>
    cases h
    obtain rfl : info = 22 := UInt8.toNat_inj.mp he
    exact ⟨trivial, Nat.succ_pos _, _, heads_eq _ take_zero, fun _ => by rw [hleft, hinitial]; rfl⟩
  case h_4 he =>
    cases h
    obtain rfl : info = 23 := UInt8.toNat_inj.mp he
    exact ⟨trivial, Nat.succ_pos _, _, heads_eq _ take_zero, fun _ => by rw [hleft, hinitial]; rfl⟩
  case h_5 he =>
    obtain ⟨⟨bs, r₂⟩, ht, h⟩ := bind_eq_ok.mp h
    cases h
    refine ⟨trivial, Nat.succ_pos _, _, heads_eq bs (by rw [he]; exact ht), fun hc => ?_⟩
    exact absurd he (hc (.simple info.toNat) (by simp)).1
  case h_6 he =>
    obtain ⟨⟨bs, r₂⟩, ht, h⟩ := bind_eq_ok.mp h
    cases h
    refine ⟨trivial, Nat.succ_pos _, _, heads_eq bs (by rw [he]; exact ht), fun hc => ?_⟩
    exact absurd he (hc (.simple info.toNat) (by simp)).2
  case h_7 he =>
    obtain ⟨⟨bs, r₂⟩, ht, h⟩ := bind_eq_ok.mp h
    cases h
    obtain rfl : info = 27 := UInt8.toNat_inj.mp he
    obtain ⟨hlen, hbs⟩ := take_ok ht
    refine ⟨trivial, Nat.succ_pos _, _, heads_eq bs ht, fun _ => ?_⟩
    have hbits : (F64.fromBeBytes bs).toBeBytes = bs := by
      have hlt := ofBe_lt bs
      rw [hlen] at hlt
      rw [F64.fromBeBytes, F64.toBeBytes, UInt64.toNat_ofNat_of_lt' (by simpa using hlt), ← hlen, beBytes_ofBe]
    rw [hleft, hinitial, hbs, Value.write, hbits]
    rfl
  case h_8 => cases h

theorem value_succ_ok {levels : Nat} {r r' : Reader} {v : Value} (h : value (levels + 1) r = .ok (v, r')) :
    ∃ initial r₁, r.byte = .ok (initial, r₁) ∧
      content (value levels) (initial >>> 5).toNat (initial &&& 0x1f).toNat r₁ = .ok (v, r') := by
  obtain ⟨⟨initial, r₁⟩, hb, h⟩ := bind_eq_ok.mp h
  exact ⟨initial, r₁, hb, h⟩

theorem value_ok {levels : Nat} {r r' : Reader} {v : Value} (h : value levels r = .ok (v, r')) :
    ReadOk levels r v r' := by
  induction levels generalizing r v r' with
  | zero => cases h
  | succ levels ih =>
    have hread : ∀ r v r', value levels r = .ok (v, r') → ReadOk levels r v r' := fun _ _ _ => ih
    obtain ⟨initial, r₁, hb, h⟩ := value_succ_ok h
    generalize hm : (initial >>> 5).toNat = major at h
    unfold content at h
    split at h
    case h_1 =>
      obtain ⟨⟨⟨n, w⟩, r₂⟩, ha, h⟩ := bind_eq_ok.mp h
      cases h
      have hn := toNat_ofNat_argument ha
      have hwithin : headsWithin (Reader.heads levels) 0 n r' = .ok ([], r') := rfl
      refine .sized hb hm (by omega) ha ?_ (Nat.succ_pos _) hwithin fun _ _ => by rw [Value.write, hn]
      simpa [Value.Fits, hn] using (argument_ok ha).2.1
    case h_2 =>
      obtain ⟨⟨⟨n, w⟩, r₂⟩, ha, h⟩ := bind_eq_ok.mp h
      cases h
      have hn := toNat_ofNat_argument ha
      have hwithin : headsWithin (Reader.heads levels) 1 n r' = .ok ([], r') := rfl
      refine .sized hb hm (by omega) ha ?_ (Nat.succ_pos _) hwithin fun _ _ => by rw [Value.write, hn]
      simpa [Value.Fits, hn] using (argument_ok ha).2.1
    case h_3 =>
      obtain ⟨⟨⟨n, w⟩, r₂⟩, hl, h⟩ := bind_eq_ok.mp h
      obtain ⟨⟨bs, r₃⟩, ht, h⟩ := bind_eq_ok.mp h
      cases h
      obtain ⟨ha, -⟩ := length_ok hl
      obtain ⟨rfl, hbs⟩ := take_ok ht
      have hwithin : headsWithin (Reader.heads levels) 2 bs.length r₂ = .ok ([], r') := by simp [headsWithin, ht]
      refine .sized hb hm (by omega) ha (argument_lt ha) (Nat.succ_pos _) hwithin fun hc _ => ?_
      rw [Value.write, hc (by simp), hbs, List.append_assoc]
    case h_4 =>
      obtain ⟨⟨⟨n, w⟩, r₂⟩, hl, h⟩ := bind_eq_ok.mp h
      obtain ⟨⟨bs, r₃⟩, ht, hp⟩ := bind_eq_ok.mp h
      obtain ⟨ha, -⟩ := length_ok hl
      obtain ⟨rfl, hbs⟩ := take_ok ht
      cases htext : fromUtf8 bs with
      | none => simp [htext] at hp
      | some t =>
        simp only [htext, pure_eq_ok, Except.ok.injEq, Prod.mk.injEq] at hp
        obtain ⟨rfl, rfl⟩ := hp
        have hutf := utf8_of_fromUtf8 htext
        have hwithin : headsWithin (Reader.heads levels) 3 bs.length r₂ = .ok ([], r₃) := by simp [headsWithin, ht]
        refine .sized hb hm (by omega) ha ?_ (Nat.succ_pos _) hwithin fun hc _ => ?_
        · simpa [Value.Fits, hutf] using argument_lt ha
        · rw [Value.write, hutf, hc (by simp), hbs, List.append_assoc]
    case h_5 =>
      obtain ⟨⟨⟨n, w⟩, r₂⟩, hl, h⟩ := bind_eq_ok.mp h
      obtain ⟨⟨items, r₃⟩, hi, h⟩ := bind_eq_ok.mp h
      cases h
      obtain ⟨ha, -⟩ := length_ok hl
      obtain ⟨rfl, hfits, hnest, hss, hhss, hw⟩ := items_ok hread hi
      refine .sized hb hm (by omega) ha ⟨argument_lt ha, hfits⟩ hnest hhss fun hc hcs => ?_
      rw [Value.write, hc (by simp), hw hcs, List.append_assoc]
    case h_6 =>
      obtain ⟨⟨⟨n, w⟩, r₂⟩, hl, h⟩ := bind_eq_ok.mp h
      obtain ⟨⟨entries, r₃⟩, he, h⟩ := bind_eq_ok.mp h
      cases h
      obtain ⟨ha, -⟩ := length_ok hl
      obtain ⟨rfl, hfits, hnest, hss, hhss, hw⟩ := entries_ok hread he
      refine .sized hb hm (by omega) ha ⟨(argument_ok ha).2.1, hfits⟩ hnest hhss fun _ hcs => ?_
      rw [Value.write, hw hcs, List.append_assoc]
    case h_7 =>
      obtain ⟨⟨⟨n, w⟩, r₂⟩, ha, h⟩ := bind_eq_ok.mp h
      obtain ⟨⟨inner, r₃⟩, hi, h⟩ := bind_eq_ok.mp h
      cases h
      have hn := toNat_ofNat_argument ha
      obtain ⟨hfits, hnest, hs, hhs, hw⟩ := ih hi
      have hwithin : headsWithin (Reader.heads levels) 6 n r₂ = .ok ([hs], r') := by simp [headsWithin, many, hhs]
      refine .sized hb hm (by omega) ha hfits (Nat.succ_lt_succ hnest) hwithin fun hc hcs => ?_
      rw [Value.write, hn, hc (by simp), hw (by simpa using hcs), List.append_assoc]
    case h_8 h0 h1 h2 h3 h4 h5 h6 =>
      have hlt := (initial_split initial).2.2
      rw [hm] at hlt
      have hseven : major = 7 := by grind
      exact simple_ok hb (hm.trans hseven) h

/-! ## Bytes after a value -/

def append (r : Reader) (c : List UInt8) : Reader := ⟨r.left ++ c, r.pos⟩

def Extends {α : Type} (read : Reader → Except DecodeError (α × Reader)) : Prop :=
  ∀ r x r' c, read r = .ok (x, r') → read (r.append c) = .ok (x, r'.append c)

theorem take_extends (n : Nat) : Extends (take n) := by
  intro r bs r' c h
  unfold take at h ⊢
  split_ifs at h with hn
  cases h
  have hn' : n ≤ r.left.length + c.length := by omega
  simp [hn', append, List.take_append_of_le_length hn, List.drop_append_of_le_length hn]

theorem byte_extends : Extends byte := by
  intro r x r' c h
  obtain ⟨⟨bs, r₁⟩, ht, h⟩ := bind_eq_ok.mp h
  cases h
  simp [byte, take_extends 1 _ _ _ c ht]

theorem word_extends (n : Nat) (w : Width) : Extends (word n w) := by
  intro r x r' c h
  obtain ⟨⟨bs, r₁⟩, ht, h⟩ := bind_eq_ok.mp h
  cases h
  simp [word, take_extends n _ _ _ c ht]

theorem argument_extends (info : Nat) : Extends (argument info) := by
  intro r x r' c h
  unfold argument at h ⊢
  split_ifs at h ⊢ with hi
  · cases h
    rfl
  split at h
  case h_1 | h_2 | h_3 | h_4 => exact word_extends _ _ _ _ _ c h
  case h_5 => cases h

theorem length_extends (info : Nat) : Extends (length info) := by
  rintro r ⟨n, w⟩ r' c h
  obtain ⟨ha, hn⟩ := length_ok h
  exact length_of_argument (argument_extends info _ _ _ c ha) (by simp only [append, List.length_append]; omega)

theorem many_extends {α : Type} {read : Reader → Except DecodeError (α × Reader)} (h : Extends read) (n : Nat) :
    Extends (many read n) := by
  induction n with
  | zero =>
    intro r xs r' c hr
    cases hr
    rfl
  | succ n ih =>
    intro r xs r' c hr
    obtain ⟨⟨x, r₁⟩, hx, hr⟩ := bind_eq_ok.mp hr
    obtain ⟨⟨xs, r₂⟩, hxs, hr⟩ := bind_eq_ok.mp hr
    cases hr
    simp [many, h _ _ _ c hx, ih _ _ _ c hxs]

theorem entry_extends {read : Reader → Except DecodeError (Value × Reader)} (h : Extends read) :
    Extends (entry read) := by
  intro r e r' c hr
  obtain ⟨⟨k, r₁⟩, hk, hr⟩ := bind_eq_ok.mp hr
  obtain ⟨⟨v, r₂⟩, hv, hr⟩ := bind_eq_ok.mp hr
  cases hr
  simp [entry, h _ _ _ c hk, h _ _ _ c hv]

theorem simple_extends (info : Nat) : Extends (simple info) := by
  intro r v r' c h
  unfold simple at h ⊢
  split at h
  case h_1 | h_2 | h_3 | h_4 =>
    cases h
    rfl
  case h_5 | h_6 | h_7 =>
    obtain ⟨⟨bs, r₁⟩, ht, h⟩ := bind_eq_ok.mp h
    cases h
    simp [take_extends _ _ _ _ c ht]
  case h_8 => cases h

theorem content_extends {read : Reader → Except DecodeError (Value × Reader)} (h : Extends read) (major info : Nat) :
    Extends (content read major info) := by
  intro r v r' c hr
  unfold content at hr ⊢
  split at hr
  case h_1 | h_2 =>
    obtain ⟨⟨⟨n, w⟩, r₁⟩, ha, hr⟩ := bind_eq_ok.mp hr
    cases hr
    simp [argument_extends _ _ _ _ c ha]
  case h_3 =>
    obtain ⟨⟨⟨n, w⟩, r₁⟩, hl, hr⟩ := bind_eq_ok.mp hr
    obtain ⟨⟨bs, r₂⟩, ht, hr⟩ := bind_eq_ok.mp hr
    cases hr
    simp [length_extends _ _ _ _ c hl, take_extends _ _ _ _ c ht]
  case h_4 =>
    obtain ⟨⟨⟨n, w⟩, r₁⟩, hl, hr⟩ := bind_eq_ok.mp hr
    obtain ⟨⟨bs, r₂⟩, ht, hr⟩ := bind_eq_ok.mp hr
    cases htext : fromUtf8 bs with
    | none => simp [htext] at hr
    | some t =>
      simp only [htext, pure_eq_ok, Except.ok.injEq, Prod.mk.injEq] at hr
      simp [length_extends _ _ _ _ c hl, take_extends _ _ _ _ c ht, htext, hr]
  case h_5 =>
    obtain ⟨⟨⟨n, w⟩, r₁⟩, hl, hr⟩ := bind_eq_ok.mp hr
    obtain ⟨⟨items, r₂⟩, hi, hr⟩ := bind_eq_ok.mp hr
    cases hr
    simp [length_extends _ _ _ _ c hl, many_extends h _ _ _ _ c hi]
  case h_6 =>
    obtain ⟨⟨⟨n, w⟩, r₁⟩, hl, hr⟩ := bind_eq_ok.mp hr
    obtain ⟨⟨entries, r₂⟩, he, hr⟩ := bind_eq_ok.mp hr
    cases hr
    simp [length_extends _ _ _ _ c hl, many_extends (entry_extends h) _ _ _ _ c he]
  case h_7 =>
    obtain ⟨⟨⟨n, w⟩, r₁⟩, ha, hr⟩ := bind_eq_ok.mp hr
    obtain ⟨⟨inner, r₂⟩, hi, hr⟩ := bind_eq_ok.mp hr
    cases hr
    simp [argument_extends _ _ _ _ c ha, h _ _ _ c hi]
  case h_8 => exact simple_extends _ _ _ _ c hr

theorem value_extends (levels : Nat) : Extends (value levels) := by
  induction levels with
  | zero =>
    intro r v r' c h
    cases h
  | succ levels ih =>
    intro r v r' c h
    obtain ⟨initial, r₁, hb, h⟩ := value_succ_ok h
    have hc := content_extends ih _ _ _ _ _ c h
    simp only [value, byte_extends _ _ _ c hb, ok_bind, hc]

end Reader

/-! ## The codec -/

namespace Value

theorem decode_ok {b : List UInt8} {v : Value} :
    decode b = .ok v ↔ ∃ pos, Reader.value (MAX_DEPTH + 1) ⟨b, 0⟩ = .ok (v, ⟨[], pos⟩) := by
  constructor
  · intro h
    obtain ⟨⟨x, left, pos⟩, hv, h⟩ := bind_eq_ok.mp h
    by_cases hl : left = []
    · simp only [hl, ne_eq, not_true_eq_false, ↓reduceIte, pure_eq_ok, Except.ok.injEq] at h
      exact ⟨pos, by rw [hv, hl, h]⟩
    · simp [hl] at h
  · rintro ⟨pos, hv⟩
    simp [decode, hv]

theorem decode_encode {v : Value} (hf : v.Fits) (hn : v.nesting ≤ MAX_DEPTH) : decode v.encode = .ok v := by
  have h := (value_write hf (Nat.lt_succ_of_le hn) [] 0).1
  rw [List.append_nil] at h
  exact decode_ok.mpr ⟨_, h⟩

theorem headers_encode {v : Value} (hf : v.Fits) (hn : v.nesting ≤ MAX_DEPTH) :
    ∀ h ∈ headers v.encode, h.Canonical := by
  obtain ⟨hs, hhs, hc⟩ := (value_write hf (Nat.lt_succ_of_le hn) [] 0).2
  rw [List.append_nil] at hhs
  simpa [headers, encode, hhs] using hc

/-- What is written reads back; what is read is written back and read the same, ends where its bytes end, and is
written back to those bytes exactly when their headers are canonical. -/
theorem codec :
    (∀ v : Value, v.Fits → v.nesting ≤ MAX_DEPTH → decode v.encode = .ok v) ∧
    ∀ (b : List UInt8) (v : Value), decode b = .ok v →
      decode v.encode = .ok v ∧
      (∀ c, c ≠ [] → ∀ v', decode (b ++ c) ≠ .ok v') ∧
      (v.encode = b ↔ ∀ h ∈ headers b, h.Canonical) := by
  refine ⟨fun v => decode_encode, fun b v h => ?_⟩
  obtain ⟨pos, hv⟩ := decode_ok.mp h
  obtain ⟨hf, hn, hs, hhs, hw⟩ := Reader.value_ok hv
  have hnest : v.nesting ≤ MAX_DEPTH := Nat.le_of_lt_succ hn
  refine ⟨decode_encode hf hnest, fun c hc v' hv' => ?_, fun he => ?_, fun hc => ?_⟩
  · obtain ⟨pos', h'⟩ := decode_ok.mp hv'
    have hx := Reader.value_extends _ _ _ _ c hv
    simp only [Reader.append, List.nil_append, h', Except.ok.injEq, Prod.mk.injEq, Reader.mk.injEq] at hx
    exact hc hx.2.1.symm
  · exact he ▸ headers_encode hf hnest
  · have hheaders : headers b = hs := by simp [headers, hhs]
    simpa [encode] using (hw (hheaders ▸ hc)).symm

/-- `[5, true]`, as cbor-x writes it. -/
theorem codec_pair :
    decode (array [uint 5 .inline, bool true]).encode = .ok (array [uint 5 .inline, bool true]) ∧
    decode [0x82, 0x05, 0xf5] = .ok (array [uint 5 .inline, bool true]) ∧
    ((array [uint 5 .inline, bool true]).encode = [0x82, 0x05, 0xf5] ↔
      ∀ h ∈ headers [0x82, 0x05, 0xf5], h.Canonical) := by
  have hd : decode [0x82, 0x05, 0xf5] = .ok (array [uint 5 .inline, bool true]) := by rfl
  refine ⟨codec.1 _ ?_ ?_, hd, (codec.2 _ _ hd).2.2⟩
  · simp [Fits, FitsItems, Width.capacity]
  · simp [nesting, nestingItems, MAX_DEPTH]

end Value

end CitadelAgent.Conversations.Cbor
