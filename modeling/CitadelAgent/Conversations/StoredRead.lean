import CitadelAgent.Conversations.StoredCodec

/-!
# The stored form: what was read

* `ConversationMessage.Sound` : finite numbers where they are required, and reactions that can be written;
* `sound_of_decodePage`, `readable_of_decodeMetadata` : whatever was read is sound;
* `Sound.readable`, `Sound.norm` : and so can be stored and read again, any number of times, to the same.
-/

namespace CitadelAgent.Conversations
open Json (Fields)
open Result Cbor

/-! ## Reactions through their bytes -/

def Reaction.norm (r : Reaction) : Reaction := { r with at_ := r.at_.norm }

theorem minimal_ne_eight {n : Nat} (h : n < 2 ^ 32) : minimal n ≠ .eight := by
  unfold minimal
  split_ifs
  · simp
  · simp
  · simp
  · simp
  · omega

theorem asNumber_number (x : F64) : (Value.number x).asNumber = some x.norm := by
  unfold Value.number
  dsimp only
  split_ifs with hpos hneg
  · simp only [Bool.and_eq_true] at hpos
    obtain ⟨⟨⟨hfract, hfin⟩, hge⟩, hle⟩ := hpos
    have hd := F64.dvd_of_fract hfin hfract
    have hlo : 0 ≤ x.intPart := F64.le_intPart hd ((F64.ofNat_le_iff (by decide) hfin).mp hge)
    have hhi : x.intPart ≤ (2 ^ 32 - 1 : Nat) := F64.intPart_le hd ((F64.le_ofNat_iff (by decide) hfin).mp hle)
    have hs : F64.Small x.intPart := by unfold F64.Small; omega
    have hwhole : (x.wholeUnits : Int) = x.intPart := by
      unfold F64.intPart at hlo ⊢
      split_ifs at hlo ⊢ <;> omega
    have hn : x.toU64.toNat = x.wholeUnits := by
      cases hsign : x.isSignNegative with
      | false => exact F64.toU64_eq_wholeUnits hfin hsign (by omega)
      | true =>
        have hw : x.wholeUnits = 0 := by
          simp only [F64.intPart, hsign, if_true] at hlo
          omega
        simp [F64.toU64, hsign, hw]
    rw [Value.asNumber, if_pos (minimal_ne_eight (by omega)), hn, F64.ofNat, hwhole, F64.norm_eq_ofInt hd hs]
  · simp only [Bool.and_eq_true] at hneg
    obtain ⟨⟨⟨hfract, hfin⟩, hge⟩, hlt⟩ := hneg
    have hmin : F64.Small (-2 ^ 31) := by decide
    have h0 : F64.Small 0 := by decide
    have h1 : F64.Small (-1) := by decide
    have hd := F64.dvd_of_fract hfin hfract
    rw [F64.le_iff (F64.isFinite_ofInt_small hmin) hfin, F64.scaled_ofInt hmin] at hge
    rw [F64.ofNat, Nat.cast_zero, F64.lt_iff hfin (F64.isFinite_ofInt_small h0), F64.scaled_ofInt h0, zero_mul] at hlt
    have hlo : -2 ^ 31 ≤ x.intPart := F64.le_intPart hd hge
    have hhi : x.intPart ≤ -1 := by
      have hle := F64.intPart_le (k := 0) hd (by omega)
      have hmul := F64.intPart_mul hd
      by_contra hcon
      have hz : x.intPart = 0 := by omega
      rw [hz, zero_mul] at hmul
      omega
    have hs : F64.Small x.intPart := by unfold F64.Small; omega
    have hx : x = F64.ofInt x.intPart := by
      have hne : x.absBits ≠ 0 := fun h => by simp [F64.scaled, h] at hlt
      rw [← F64.norm_eq_ofInt hd hs, F64.norm_eq_self hne]
    generalize x.intPart = k at hx hlo hhi hs
    subst hx
    have hj : F64.Small (-1 - k) := by unfold F64.Small; omega
    have hn := F64.toU64_ofInt hj (by omega)
    rw [F64.ofInt_sub h1 hs, F64.norm_ofInt hs]
    have hback : ((-1 - k).natAbs : Int) = -1 - k := by omega
    rw [Value.asNumber, if_pos (minimal_ne_eight (by omega)), hn, F64.ofNat, hback, F64.ofInt_sub h1 hj,
      show -1 - (-1 - k) = k by omega]
  · have hne : x.absBits ≠ 0 := by
      intro h0
      have hzero : ∀ s, ((F64.ofSignBits s 0).fract.eq (F64.ofNat 0) && (F64.ofSignBits s 0).isFinite &&
          (F64.ofNat 0).le (F64.ofSignBits s 0) && (F64.ofSignBits s 0).le (F64.ofNat (2 ^ 32 - 1))) = true := by
        decide +kernel
      have hz := hzero x.isSignNegative
      rw [← F64.eq_ofSignBits_zero h0] at hz
      exact hpos hz
    rw [Value.asNumber, F64.norm_eq_self hne]

theorem fits_number (x : F64) : (Value.number x).Fits ∧ (Value.number x).nesting = 0 := by
  unfold Value.number
  dsimp only
  split_ifs
  · exact ⟨minimal_capacity (UInt64.toNat_lt _), rfl⟩
  · exact ⟨minimal_capacity (UInt64.toNat_lt _), rfl⟩
  · exact ⟨trivial, rfl⟩

variable {list : List Reaction} {m : ConversationMessage} {p : ConversationPage}

namespace Reactions

/-- Texts that a CBOR header can carry the length of. -/
def ShortEmojis (list : List Reaction) : Prop := ∀ r ∈ list, (utf8 r.emoji).length < 2 ^ 64

theorem item_fits {r : Reaction} (h : (utf8 r.emoji).length < 2 ^ 64) : (item r).Fits ∧ (item r).nesting = 1 := by
  obtain ⟨hf, hn⟩ := fits_number r.at_
  have hkey : (utf8 "emoji").length < 2 ^ 64 ∧ (utf8 "reactorCid").length < 2 ^ 64 ∧ (utf8 "at").length < 2 ^ 64 ∧
      (utf8 "active").length < 2 ^ 64 := by decide +kernel
  have hcid : r.reactorCid.toNat < 2 ^ 64 := r.reactorCid.toNat_lt
  constructor
  · simp [item, Value.object, Value.bigint, Value.Fits, Value.FitsEntries, Width.capacity, hf]
    omega
  · simp [item, Value.object, Value.bigint, Value.nesting, Value.nestingEntries, hn]

theorem ofItem_item (r : Reaction) : ofItem (item r) = some r.norm := by
  have hn := asNumber_number r.at_
  simp [ofItem, item, Value.object, Value.get, Value.isKey, Value.asStr, Value.bigint, Value.asBigint, hn, Value.asBool,
    Reaction.norm]

theorem items_readBack (h : ShortEmojis list) {levels : Nat} (hl : 1 < levels) :
    ∀ v ∈ list.map item, v.ReadsBack levels := by
  intro v hv
  obtain ⟨r, hr, rfl⟩ := List.mem_map.mp hv
  obtain ⟨hf, hn⟩ := item_fits (h r hr)
  exact Value.value_write hf (by omega)

theorem decode_of_value {bytes : List UInt8} {items : List Value} (h : Value.decode bytes = .ok (.array items)) :
    decode bytes = if items.filterMap ofItem = [] then none else some (items.filterMap ofItem) := by
  simp only [decode, h]

theorem filterMap_items (list : List Reaction) : (list.map item).filterMap ofItem = list.map Reaction.norm := by
  induction list with
  | nil => rfl
  | cons r list ih => simp [ofItem_item, ih]

theorem reread_of_length_lt (h : ShortEmojis list) (hlen : list.length < 2 ^ 64)
    (hne : list ≠ []) : reread list = some (list.map Reaction.norm) := by
  have hfits : (Value.array (list.map item)).Fits := by
    refine ⟨by simpa using hlen, ?_⟩
    clear hne hlen
    induction list with
    | nil => trivial
    | cons r list ih =>
      exact ⟨(item_fits (h r (by simp))).1, ih fun x hx => h x (by simp [hx])⟩
  have hnest : (Value.array (list.map item)).nesting ≤ MAX_DEPTH := by
    have hle : ∀ l : List Reaction, ShortEmojis l → Value.nestingItems (l.map item) ≤ 2 := by
      intro l hl
      induction l with
      | nil => simp [Value.nestingItems]
      | cons r l ih =>
        have hr := (item_fits (hl r (by simp))).2
        have hi := ih fun x hx => hl x (by simp [hx])
        simp only [List.map_cons, Value.nestingItems, hr]
        omega
    exact Nat.le_trans (hle list h) (by decide)
  have hdec := Value.decode_encode hfits hnest
  rw [reread, encode, if_neg hne, Option.bind_some, decode_of_value hdec, filterMap_items, if_neg (by simpa using hne)]

theorem reread_of_le_length (h : ShortEmojis list) (hlen : 2 ^ 64 ≤ list.length) :
    reread list = none := by
  have hne : list ≠ [] := fun h0 => by simp [h0] at hlen
  have hmin : minimal list.length = .eight := by
    unfold minimal
    rw [if_neg (by omega), if_neg (by omega), if_neg (by omega), if_neg (by omega)]
  -- the header carries the length modulo `2 ^ 64`
  obtain ⟨k, hk, hhead⟩ : ∃ k, k < 2 ^ 64 ∧ head 4 list.length .eight = head 4 k .eight := by
    refine ⟨list.length % 2 ^ 64, Nat.mod_lt _ (by decide), ?_⟩
    have hsplit : list.length = list.length / 2 ^ 64 * 256 ^ 8 + list.length % 2 ^ 64 := by omega
    have hbytes : BigEndian.beBytes 8 list.length = BigEndian.beBytes 8 (list.length % 2 ^ 64) := by
      conv_lhs => rw [hsplit]
      exact BigEndian.beBytes_add_mul 8 _ _
    simp only [head, hbytes]
  have hk' : k < (list.map item).length := by rw [List.length_map]; omega
  have hwrite : (Value.array (list.map item)).encode =
      head 4 k .eight ++ (Value.writeItems ((list.map item).take k) ++ Value.writeItems ((list.map item).drop k)) := by
    rw [← Value.writeItems_append, List.take_append_drop, ← hhead, Value.encode, Value.write, List.length_map, hmin]
  have hleft : Value.writeItems ((list.map item).drop k) ≠ [] := by
    intro hnil
    have hle := Value.length_le_writeItems ((list.map item).drop k)
    rw [hnil, List.length_drop, List.length_nil] at hle
    omega
  obtain ⟨info, r, ha, hv, -⟩ := Value.value_head (m := 4) (by decide) (w := .eight) hk MAX_DEPTH
    (Value.writeItems ((list.map item).take k) ++ Value.writeItems ((list.map item).drop k)) 0
  have hitems : ∀ v ∈ (list.map item).take k, v.ReadsBack MAX_DEPTH :=
    fun v hv => items_readBack h (by decide) v (List.mem_of_mem_take hv)
  have hread := (Value.items_readBack hitems (Value.writeItems ((list.map item).drop k))
    (0 + (head 4 k .eight).length)).1
  rw [List.length_take, Nat.min_eq_left hk'.le] at hread
  have hlong : k ≤ (Value.writeItems ((list.map item).take k) ++
      Value.writeItems ((list.map item).drop k)).length := by
    have hle := Value.length_le_writeItems ((list.map item).take k)
    rw [List.length_take, Nat.min_eq_left hk'.le] at hle
    rw [List.length_append]
    omega
  have hl := Reader.length_of_argument ha hlong
  have hdec : Value.decode (Value.array (list.map item)).encode =
      .error (.trailing (Value.writeItems ((list.map item).drop k)).length) := by
    rw [hwrite, Value.decode, hv]
    simp only [Reader.content, hl, ok_bind, hread, pure_eq_ok, ne_eq, hleft, not_false_eq_true, if_true, throw_eq_error,
      error_bind]
  rw [reread, encode, if_neg hne, Option.bind_some, decode, hdec]

theorem finiteTimes_norm (h : FiniteTimes list) : FiniteTimes (list.map Reaction.norm) := by
  intro r hr
  obtain ⟨r', hr', rfl⟩ := List.mem_map.mp hr
  simpa [Reaction.norm] using h r' hr'

theorem reread_eq (hs : ShortEmojis list) :
    reread list = if list = [] ∨ 2 ^ 64 ≤ list.length then none else some (list.map Reaction.norm) := by
  split_ifs with h
  · rcases h with rfl | h
    · rfl
    · exact reread_of_le_length hs h
  · rw [not_or] at h
    exact reread_of_length_lt hs (by omega) h.1

theorem entry_fits {entries : List (Value × Value)} {w : Width} {v : Value} {key : String}
    (hf : (Value.map entries w).Fits) (hget : (Value.map entries w).get key = some v) : v.Fits := by
  simp only [Value.get, Option.map_eq_some_iff] at hget
  obtain ⟨e, he, rfl⟩ := hget
  exact (hf.2.mem e (List.mem_of_find?_eq_some he)).2

theorem shortEmoji_of_ofItem {v : Value} {r : Reaction} (hf : v.Fits) (h : ofItem v = some r) :
    (utf8 r.emoji).length < 2 ^ 64 := by
  simp only [ofItem, Option.bind_eq_bind, Option.bind_eq_some_iff, Option.pure_def, Option.some.injEq] at h
  obtain ⟨e, he, emoji, hemoji, c, hc, cid, hcid, t, ht, at_, hat, a, ha, active, hactive, rfl⟩ := h
  cases v with
  | map entries w =>
    have hfe := entry_fits hf he
    cases e with
    | text t =>
      cases hemoji
      exact hfe
    | _ => cases hemoji
  | _ => cases he

theorem shortEmojis_of_decode {bytes : List UInt8} (h : decode bytes = some list) :
    ShortEmojis list := by
  unfold decode at h
  split at h
  case h_1 items hv =>
    obtain ⟨pos, hval⟩ := Value.decode_ok.mp hv
    have hf := (Reader.value_ok hval).fits
    dsimp only at h
    split_ifs at h
    cases h
    intro r hr
    obtain ⟨v, hmem, hof⟩ := List.mem_filterMap.mp hr
    exact shortEmoji_of_ofItem (hf.2.mem v hmem) hof
  case h_2 => cases h

end Reactions

/-! ## Numbers that were read -/

theorem isFinite_asF64 (n : Json.Number) : n.asF64.isFinite = true := by
  cases n with
  | posInt n =>
    have := n.toNat_lt
    rw [Json.Number.asF64, F64.ofNat]
    exact F64.isFinite_ofInt (by omega)
  | negInt n =>
    rw [Json.Number.asF64]
    refine F64.isFinite_ofInt ?_
    have h₁ := n.le_toInt
    have h₂ := n.toInt_lt
    omega
  | float f => exact f.finite

theorem isFinite_readF64 {v : Json} {x : F64} (h : Json.readF64 v = .ok x) : x.isFinite = true := by
  cases v with
  | number n =>
    cases h
    exact isFinite_asF64 n
  | _ => cases h

theorem isFinite_required {fields : String → Option Json} {name : String} {x : F64}
    (h : Json.required fields name Json.readF64 = .ok x) : x.isFinite = true := by
  unfold Json.required at h
  split at h
  case h_1 v _ => exact isFinite_readF64 h
  case h_2 => cases h

theorem mem_of_mapM {ε α β : Type} {read : α → Except ε β} {items : List α} {list : List β}
    (h : items.mapM read = .ok list) : ∀ a ∈ list, ∃ v ∈ items, read v = .ok a := by
  have hall := mapM_eq_ok.mp h
  clear h
  induction hall with
  | nil => exact fun a ha => nomatch ha
  | cons hx _ ih =>
    intro a ha
    rcases List.mem_cons.mp ha with rfl | ha
    · exact ⟨_, List.mem_cons_self, hx⟩
    · obtain ⟨w, hw, hr⟩ := ih a ha
      exact ⟨w, List.mem_cons_of_mem _ hw, hr⟩

theorem readList_of_defaulted {α : Type} {read : Json → Except Json.Error α} {fields : String → Option Json}
    {name : String} {list : List α} (h : Json.defaulted fields name none (Json.readOption (Json.readList read)) =
      .ok (some list)) : ∃ v, fields name = some v ∧ Json.readList read v = .ok list := by
  unfold Json.defaulted at h
  split at h
  case h_1 v hv =>
    refine ⟨v, hv, ?_⟩
    cases v with
    | array items =>
      simp only [Json.readOption] at h
      cases hl : Json.readList read (.array items) with
      | error e => rw [hl] at h; cases h
      | ok l => rw [hl] at h; cases h; rfl
    | null => cases h
    | _ => cases h
  case h_2 => cases h

theorem isFinite_fileSize {v : Json} {a : Attachment} (h : Attachment.fromValue v = .ok a) :
    a.fileSize.isFinite = true := by
  simp only [Attachment.fromValue, bind_eq_ok] at h
  obtain ⟨fields, -, id, -, name, -, size, hsize, type, -, thumb, -, h⟩ := h
  cases h
  exact isFinite_required hsize

namespace ConversationMessage

/-- Finite numbers where they are required, and reactions that can be written. -/
structure Sound (m : ConversationMessage) : Prop where
  timestamp : m.timestamp.isFinite = true
  index : m.index.isFinite = true
  attachments : ∀ list, m.attachments = some list → ∀ a ∈ list, a.fileSize.isFinite = true
  reactions : ∀ list, m.reactions = some list → FiniteTimes list ∧ Reactions.ShortEmojis list

theorem Sound.rereadReactions (h : m.Sound) (hl : m.rereadReactions = some list) : FiniteTimes list ∧ Reactions.ShortEmojis list ∧
      Reactions.reread list = some list := by
  simp only [ConversationMessage.rereadReactions, Option.bind_eq_some_iff] at hl
  obtain ⟨held, hheld, hre⟩ := hl
  obtain ⟨hfin, hshort⟩ := h.reactions held hheld
  rw [Reactions.reread_eq hshort] at hre
  split_ifs at hre with hlen
  cases hre
  have hshort' : Reactions.ShortEmojis (held.map Reaction.norm) := by
    intro r hr
    obtain ⟨r', hr', rfl⟩ := List.mem_map.mp hr
    exact hshort r' hr'
  refine ⟨Reactions.finiteTimes_norm hfin, hshort', ?_⟩
  rw [Reactions.reread_eq hshort', if_neg (by simpa using hlen)]
  simp [Reaction.norm, Function.comp_def]

theorem Sound.readable (h : m.Sound) : m.Readable :=
  ⟨h.timestamp, h.index, h.attachments, fun _ hl => (h.rereadReactions hl).1⟩

theorem Sound.norm (h : m.Sound) : m.norm.Sound where
  timestamp := by simpa [ConversationMessage.norm] using h.timestamp
  index := by simpa [ConversationMessage.norm] using h.index
  attachments := by
    intro list hl a ha
    simp only [ConversationMessage.norm, Option.map_eq_some_iff] at hl
    obtain ⟨held, hheld, rfl⟩ := hl
    obtain ⟨a', ha', rfl⟩ := List.mem_map.mp ha
    simpa [Attachment.norm] using h.attachments held hheld a' ha'
  reactions := fun _ hl => ⟨(h.rereadReactions hl).1, (h.rereadReactions hl).2.1⟩

theorem finite_norm_norm (o : Option F64) : (((o.filter F64.isFinite).map F64.norm).filter F64.isFinite).map F64.norm =
    (o.filter F64.isFinite).map F64.norm := by
  cases o with
  | none => rfl
  | some x =>
    by_cases hx : x.isFinite = true
    · simp [Option.filter, hx]
    · simp [Option.filter, hx]

theorem Sound.norm_norm (h : m.Sound) : m.norm.norm = m.norm := by
  have hreact : m.norm.rereadReactions = m.rereadReactions := by
    have hn : m.norm.reactions = m.rereadReactions := rfl
    cases hr : m.rereadReactions with
    | none => rw [ConversationMessage.rereadReactions, hn, hr, Option.bind_none]
    | some list => rw [ConversationMessage.rereadReactions, hn, hr, Option.bind_some, (h.rereadReactions hr).2.2]
  have hatt : m.norm.attachments.map (List.map Attachment.norm) = m.norm.attachments := by
    simp only [ConversationMessage.norm, Option.map_map]
    congr 1
    funext list
    simp [Attachment.norm, Function.comp_def]
  rw [ConversationMessage.norm, hreact, hatt]
  simp only [ConversationMessage.norm, F64.norm_norm, finite_norm_norm]

theorem sound_of_fromValue {object : Fields} (h : fromValue (.object (canonicalReactions object)) = .ok m) : m.Sound := by
  simp only [fromValue, Json.struct, ok_bind, bind_eq_ok] at h
  obtain ⟨_, -, _, -, _, -, _, -, t, ht, i, hi, _, -, _, -, _, -, _, -, react, hreact, _, -, att, hatt, _, -, _, -, _, -,
    _, -, _, -, _, -, _, -, _, -, _, -, _, -, _, -, _, -, h⟩ := h
  cases h
  refine ⟨isFinite_required ht, isFinite_required hi, ?_, ?_⟩
  · rintro list rfl a ha
    obtain ⟨v, -, hl⟩ := readList_of_defaulted hatt
    cases v with
    | array items =>
      obtain ⟨w, -, hw⟩ := mem_of_mapM hl a ha
      exact isFinite_fileSize hw
    | _ => cases hl
  · rintro list rfl
    obtain ⟨v, hv, hl⟩ := readList_of_defaulted hreact
    unfold canonicalReactions at hv
    split at hv
    case h_1 hnone => rw [hnone] at hv; cases hv
    case h_2 value _ =>
      split at hv
      case h_1 held hdec =>
        rw [Fields.get_insert, if_pos rfl] at hv
        cases hv
        obtain ⟨hfin, rfl⟩ := (readList_reactions held list).mp hl
        obtain ⟨bytes, -, hd⟩ := Option.bind_eq_some_iff.mp hdec
        exact ⟨hfin, Reactions.shortEmojis_of_decode hd⟩
      case h_2 =>
        rw [Fields.get_remove, if_pos rfl] at hv
        cases hv

end ConversationMessage

namespace ConversationPage

structure Sound (p : ConversationPage) : Prop where
  minTimestamp : p.pageTimestamps.minTimestamp.isFinite = true
  maxTimestamp : p.pageTimestamps.maxTimestamp.isFinite = true
  messages : ∀ m ∈ p.messages, m.Sound

theorem Sound.readable (h : p.Sound) : p.Readable :=
  ⟨h.minTimestamp, h.maxTimestamp, fun m hm => (h.messages m hm).readable⟩

theorem Sound.finiteReactions (h : p.Sound) : p.FiniteReactions :=
  fun m hm list hl => ((h.messages m hm).reactions list hl).1

theorem Sound.norm (h : p.Sound) : p.norm.Sound where
  minTimestamp := by simpa [ConversationPage.norm, PageTimestamps.norm] using h.minTimestamp
  maxTimestamp := by simpa [ConversationPage.norm, PageTimestamps.norm] using h.maxTimestamp
  messages := by
    intro m hm
    obtain ⟨m', hm', rfl⟩ := List.mem_map.mp hm
    exact (h.messages m' hm').norm

theorem Sound.norm_norm (h : p.Sound) : p.norm.norm = p.norm := by
  have hm : (p.messages.map ConversationMessage.norm).map ConversationMessage.norm =
      p.messages.map ConversationMessage.norm := by
    rw [List.map_map]
    exact List.map_congr_left fun m hm => (h.messages m hm).norm_norm
  simp only [ConversationPage.norm, hm, PageTimestamps.norm, F64.norm_norm]

theorem Sound.encodePage (h : p.Sound) :
    encodePage p = .ok (.json (.object (jsFields p.storedFields))) :=
  (encodePage_eq_ok p _).mpr ⟨h.finiteReactions, rfl⟩

end ConversationPage

theorem sound_of_decodePage {b : Bytes} (h : decodePage b = .ok p) : p.Sound := by
  simp only [decodePage, bind_eq_ok] at h
  obtain ⟨v, -, o₁, -, o₂, -, o₃, hmap, h⟩ := h
  cases hp : ConversationPage.fromValue (.object o₃) with
  | error e => rw [hp] at h; cases h
  | ok q =>
    rw [hp] at h
    cases h
    simp only [ConversationPage.fromValue, Json.struct, ok_bind, bind_eq_ok] at hp
    obtain ⟨_, -, _, -, messages, hmsgs, times, htimes, hp⟩ := hp
    cases hp
    have ht : times.minTimestamp.isFinite = true ∧ times.maxTimestamp.isFinite = true := by
      unfold Json.required at htimes
      split at htimes
      case h_1 w _ =>
        simp only [PageTimestamps.fromValue, bind_eq_ok] at htimes
        obtain ⟨fields, -, lo, hlo, hi, hhi, htimes⟩ := htimes
        cases htimes
        exact ⟨isFinite_required hlo, isFinite_required hhi⟩
      case h_2 => cases htimes
    refine ⟨ht.1, ht.2, fun m hm => ?_⟩
    unfold Json.required at hmsgs
    split at hmsgs
    case h_2 => cases hmsgs
    case h_1 w hw =>
      cases w with
      | array items =>
        obtain ⟨v, hv, hread⟩ := mem_of_mapM hmsgs m hm
        -- the elements of the array are what `canonicalMessage` left
        unfold mapMessages at hmap
        split at hmap
        case h_1 held _ =>
          obtain ⟨changed, hchanged, hmap⟩ := bind_eq_ok.mp hmap
          cases hmap
          rw [Fields.get_insert, if_pos rfl] at hw
          cases hw
          obtain ⟨fields, -, hf⟩ := mem_of_mapM hchanged v hv
          simp only [changeMessage, canonicalMessage, bind_eq_ok] at hf
          obtain ⟨_, -, _, ⟨_, -, o, -, ho⟩, hf⟩ := hf
          cases ho
          cases hf
          exact ConversationMessage.sound_of_fromValue hread
        case h_2 hnot =>
          cases hmap
          exact absurd hw (hnot items)
      | _ => cases hmsgs

theorem readable_of_decodeMetadata {b : Bytes} {m : ConversationMetadata} (h : decodeMetadata b = .ok m) :
    m.Readable := by
  simp only [decodeMetadata, bind_eq_ok] at h
  obtain ⟨v, -, o₁, -, o₂, -, o₃, -, h⟩ := h
  cases hm : ConversationMetadata.fromValue (.object o₃) with
  | error e => rw [hm] at h; cases h
  | ok q =>
    rw [hm] at h
    cases h
    simp only [ConversationMetadata.fromValue, Json.struct, ok_bind, bind_eq_ok] at hm
    obtain ⟨_, -, _, -, _, -, total, htotal, oldest, holdest, newest, hnewest, _, -, _, -, unread, hunread, index, hindex,
      updated, hupdated, hm⟩ := hm
    cases hm
    exact ⟨isFinite_required htotal, isFinite_required holdest, isFinite_required hnewest, isFinite_required hunread,
      isFinite_required hindex, isFinite_required hupdated⟩

end CitadelAgent.Conversations
