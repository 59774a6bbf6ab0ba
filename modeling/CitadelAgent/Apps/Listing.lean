import CitadelAgent.Apps.Kv

/-!
# Listing an app's keys, page by page

An app lists its keys by following `next`, and its namespace may change between two pages. The keys of an index are in
the order of their code points, which is that of their UTF-8 bytes.

* `Listed` : every value stored is in the index, through any run, whatever fails;
* `Pager.turn` : one more page, read from whatever the records are by then;
* `Pager.Sound`, `Pager.Sound.turn` : the pages so far are in order, and nothing between them was passed over;
* `listing_complete` : so they are complete, and they end.
-/

namespace CitadelAgent.Apps

/-! ## One page -/

def matching (index : Index) (start after : Option String) : List String :=
  index.keys.filter fun key => (start.getD "").toList.isPrefixOf key.toList && after.all fun a => decide (a < key)

/-- `key` comes after the cursor. -/
def Beyond (after : Option String) (key : String) : Prop := ∀ a, after = some a → a < key

instance (after : Option String) (key : String) : Decidable (Beyond after key) :=
  match after with
  | none => isTrue nofun
  | some a => decidable_of_iff (a < key) (by simp [Beyond])

def Starts (start : Option String) (key : String) : Prop := (start.getD "").toList <+: key.toList

variable {key name : String}

theorem mem_matching {index : Index} {start after : Option String} :
    key ∈ matching index start after ↔ key ∈ index.keys ∧ Starts start key ∧ Beyond after key := by
  rw [matching, List.mem_filter, Bool.and_eq_true, List.isPrefixOf_iff_prefix, Starts, Beyond]
  cases after with
  | none => simp
  | some a => simp

theorem sorted_matching (index : Index) (start after : Option String) : (matching index start after).Pairwise (· < ·) :=
  (List.pairwise_map.mpr index.sorted).filter _

/-- What a page says: it is short, in order and of the index; where it names no next, that was all; where it does, all that
it left lies beyond. -/
structure PageOf (index : Index) (start after : Option String) (keys : List String) (next : Option String) : Prop where
  short : keys.length ≤ APP_KV_LIST_PAGE
  sorted : keys.Pairwise (· < ·)
  matches_ : ∀ key ∈ keys, key ∈ index.keys ∧ Starts start key ∧ Beyond after key
  last : next = none → ∀ key ∈ matching index start after, key ∈ keys
  cursor : ∀ a, next = some a → a ∈ keys ∧ (∀ key ∈ keys, key ≤ a) ∧
    ∀ key ∈ matching index start after, key ∈ keys ∨ a < key

theorem page_spec (index : Index) (start after : Option String) :
    ∃ keys next, AppKv.page index start after = .keys keys next ∧ PageOf index start after keys next := by
  have hsplit := List.take_append_drop APP_KV_LIST_PAGE (matching index start after)
  have hsorted := sorted_matching index start after
  rw [← hsplit] at hsorted
  obtain ⟨hkeys, -, hbefore⟩ := List.pairwise_append.mp hsorted
  have hmem : ∀ key ∈ matching index start after,
      key ∈ (matching index start after).take APP_KV_LIST_PAGE ∨ key ∈ (matching index start after).drop APP_KV_LIST_PAGE := by
    intro key hkey
    rw [← hsplit] at hkey
    exact List.mem_append.mp hkey
  have hpage : AppKv.page index start after = .keys ((matching index start after).take APP_KV_LIST_PAGE)
      (if ((matching index start after).drop APP_KV_LIST_PAGE).isEmpty then none
        else ((matching index start after).take APP_KV_LIST_PAGE).getLast?) := rfl
  refine ⟨_, _, hpage, List.length_take_le _ _, hkeys, fun key hkey => mem_matching.mp (List.mem_of_mem_take hkey), ?_, ?_⟩
  · intro hnone key hkey
    refine (hmem key hkey).resolve_right fun hdrop => ?_
    split_ifs at hnone with hempty
    · rw [List.isEmpty_iff.mp hempty] at hdrop
      exact absurd hdrop List.not_mem_nil
    · -- More than a page matches, so the page is not empty.
      rw [List.getLast?_eq_none_iff] at hnone
      have hlen := congrArg List.length hnone
      rw [List.length_take, List.length_nil] at hlen
      have hlong := List.length_pos_of_mem hdrop
      rw [List.length_drop] at hlong
      unfold APP_KV_LIST_PAGE at *
      omega
  · intro a ha
    split_ifs at ha with hempty
    obtain ⟨front, hfront⟩ := List.getLast?_eq_some_iff.mp ha
    have hlast : a ∈ (matching index start after).take APP_KV_LIST_PAGE := List.mem_of_getLast? ha
    refine ⟨hlast, fun key hkey => ?_, fun key hkey => ?_⟩
    · rw [hfront] at hkey hkeys
      rcases List.mem_append.mp hkey with hfirst | hself
      · exact ((List.pairwise_append.mp hkeys).2.2 key hfirst a (List.mem_singleton_self _)).le
      · exact (List.mem_singleton.mp hself).le
    · rcases hmem key hkey with htake | hdrop
      · exact .inl htake
      · exact .inr (hbefore a hlast key hdrop)

/-! ## The index through a run -/

structure Listed (codec : IndexCodec) (ns : Namespace) (kv : Kv) (index : Index) : Prop where
  read : indexOf codec ns kv = .ok index
  stored : ∀ key value, storedAt ns kv key = some value → key ∈ index.keys

section Run

variable {codec : IndexCodec} {ns : Namespace} {kv : Kv} {index : Index}

theorem Listed.written (h : Listed codec ns kv index) (key : String) (len : UInt64) :
    Listed codec ns (kv.insert ns.index (codec.toVec (index.insert key len))) (index.insert key len) where
  read := indexOf_insert_index _
  stored k value hs := by
    rw [storedAt_insert_index] at hs
    exact SortedMap.mem_keys_insert.mpr (.inr (h.stored k value hs))

theorem Listed.set (h : Listed codec ns kv index) (hname : ns.entry key = .ok name) (len : UInt64) (value : Bytes) :
    Listed codec ns ((kv.insert ns.index (codec.toVec (index.insert key len))).insert name value) (index.insert key len) where
  read := by rw [indexOf_insert_entry hname, indexOf_insert_index]
  stored k v hs := by
    rw [storedAt_insert_entry hname] at hs
    split_ifs at hs with hsame
    · exact SortedMap.mem_keys_insert.mpr (.inl hsame)
    · exact (h.written key len).stored k v hs

theorem Listed.erased (h : Listed codec ns kv index) (hname : ns.entry key = .ok name) :
    Listed codec ns (kv.erase name) index where
  read := by rw [indexOf_erase hname, h.read]
  stored k value hs := by
    rw [storedAt_erase hname] at hs
    split_ifs at hs
    exact h.stored k value hs

theorem Listed.delisted (h : Listed codec ns kv index) (hname : ns.entry key = .ok name) :
    Listed codec ns ((kv.erase name).insert ns.index (codec.toVec (index.erase key))) (index.erase key) where
  read := indexOf_insert_index _
  stored k value hs := by
    rw [storedAt_insert_index, storedAt_erase hname] at hs
    split_ifs at hs with hsame
    exact SortedMap.mem_keys_erase.mpr ⟨hsame, h.stored k value hs⟩

/-- **One operation keeps every stored value in the index**, whatever becomes of its calls. -/
theorem Listed.step (h : Listed codec ns kv index) (step : Step) : ∃ next, Listed codec ns (step.apply codec ns kv) next := by
  obtain ⟨op, outcomes⟩ := step
  cases op with
  | get key =>
    rw [apply_get]
    exact ⟨index, h⟩
  | list start after =>
    rw [apply_list]
    exact ⟨index, h⟩
  | delete key =>
    rcases apply_delete key outcomes h.read with heq | ⟨name, hname, heq | heq⟩
    · exact ⟨index, by rw [heq]; exact h⟩
    · exact ⟨index, by rw [heq]; exact h.erased hname⟩
    · exact ⟨_, by rw [heq]; exact h.delisted hname⟩
  | set key value =>
    rcases apply_set key value outcomes h.read with ⟨-, heq⟩ | ⟨name, ha, heq⟩
    · exact ⟨index, by rw [heq]; exact h⟩
    · rw [heq]
      unfold setWrites
      cases outcomes.tail.headD .done with
      | refused => exact ⟨index, h⟩
      | lost => exact ⟨_, h.written key _⟩
      | done =>
        cases outcomes.tail.tail.headD .done with
        | refused => exact ⟨_, h.written key _⟩
        | done => exact ⟨_, h.set ha.entry _ value⟩
        | lost => exact ⟨_, h.set ha.entry _ value⟩

theorem Listed.runSteps (h : Listed codec ns kv index) (steps : List Step) :
    ∃ next, Listed codec ns (runSteps codec ns kv steps) next := by
  induction steps generalizing kv index with
  | nil => exact ⟨index, h⟩
  | cons step rest ih =>
    obtain ⟨next, hnext⟩ := h.step step
    exact ih hnext

theorem Fresh.listed (h : Fresh ns kv) (codec : IndexCodec) : Listed codec ns kv SortedMap.empty := by
  refine ⟨(h.withinQuota codec).read, fun key value hs => ?_⟩
  rw [h.values key] at hs
  cases hs

end Run

/-! ## Following the cursor -/

/-- What `List` answers when its call is carried out. -/
def listOn (codec : IndexCodec) (ns : Namespace) (kv : Kv) (start after : Option String) : Except AppKvRefusal AppKvResult :=
  (Prog.exec faulty (AppKv.run codec ns (.list start after)) (kv, [])).1

/-- An app that follows `next`: the pages it has, and where it is. -/
structure Pager where
  pages : List (List String)
  after : Option String
  done : Bool

namespace Pager

def first : Pager := ⟨[], none, false⟩

def keys (p : Pager) : List String := p.pages.flatten

def turn (codec : IndexCodec) (ns : Namespace) (start : Option String) (kv : Kv) (p : Pager) : Pager :=
  if p.done then p
  else
    match listOn codec ns kv start p.after with
    | .ok (.keys keys next) => ⟨p.pages ++ [keys], next, next.isNone⟩
    | _ => p

end Pager

def recordsAt (codec : IndexCodec) (ns : Namespace) (kv : Kv) (between : ℕ → List Step) : ℕ → Kv
  | 0 => kv
  | n + 1 => runSteps codec ns (recordsAt codec ns kv between n) (between n)

def pagerAt (codec : IndexCodec) (ns : Namespace) (start : Option String) (kvs : ℕ → Kv) : ℕ → Pager
  | 0 => .first
  | n + 1 => (pagerAt codec ns start kvs n).turn codec ns start (kvs n)

def keysOf (codec : IndexCodec) (ns : Namespace) (kv : Kv) : List String :=
  match indexOf codec ns kv with
  | .ok index => index.keys
  | .error _ => []

section Follow

variable {codec : IndexCodec} {ns : Namespace} {start : Option String} {kv : Kv} {index : Index}

theorem keysOf_eq (h : indexOf codec ns kv = .ok index) : keysOf codec ns kv = index.keys := by rw [keysOf, h]

theorem listOn_eq (h : indexOf codec ns kv = .ok index) (start after : Option String) :
    listOn codec ns kv start after = .ok (AppKv.page index start after) := by
  rw [listOn, AppKv.run, Prog.exec_bind, exec_readIndex, List.headD_nil, if_pos rfl, h]
  rfl

/-- What the pages so far say: they are short and in order, up to the cursor. -/
structure Pager.Sound (start : Option String) (p : Pager) : Prop where
  short : ∀ keys ∈ p.pages, keys.length ≤ APP_KV_LIST_PAGE
  sorted : p.keys.Pairwise (· < ·)
  starts : ∀ key ∈ p.keys, Starts start key
  /-- Where there is no cursor there is no page, or all is done. -/
  none : p.after = none → p.done = true ∨ p.pages = []
  cursor : ∀ a, p.after = some a → ∀ key ∈ p.keys, key ≤ a

theorem sound_first : Pager.first.Sound start :=
  ⟨fun _ h => absurd h List.not_mem_nil, List.Pairwise.nil, fun _ h => absurd h List.not_mem_nil, fun _ => .inr rfl,
    nofun⟩

theorem turn_eq (start : Option String) (hread : indexOf codec ns kv = .ok index) {p : Pager} (hdone : p.done = false) :
    ∃ keys next, p.turn codec ns start kv = ⟨p.pages ++ [keys], next, next.isNone⟩ ∧ PageOf index start p.after keys next := by
  obtain ⟨keys, next, hpage, hspec⟩ := page_spec index start p.after
  refine ⟨keys, next, ?_, hspec⟩
  rw [Pager.turn, hdone, listOn_eq hread, hpage]
  rfl

theorem turn_done {p : Pager} (h : p.done = true) : p.turn codec ns start kv = p := by rw [Pager.turn, if_pos h]

theorem Pager.Sound.turn {p : Pager} (h : p.Sound start) (hread : indexOf codec ns kv = .ok index) :
    (p.turn codec ns start kv).Sound start := by
  cases hdone : p.done with
  | true =>
    rw [turn_done hdone]
    exact h
  | false =>
    obtain ⟨keys, next, heq, hspec⟩ := turn_eq start hread hdone
    rw [heq]
    have hkeys : (Pager.mk (p.pages ++ [keys]) next next.isNone).keys = p.keys ++ keys := by simp [Pager.keys]
    -- All that came before lies at or before the cursor, all that comes now beyond it.
    have hbefore : ∀ old ∈ p.keys, ∀ key ∈ keys, old < key := by
      intro old hold key hkey
      cases hafter : p.after with
      | none =>
        rcases h.none hafter with hyes | hnil
        · rw [hdone] at hyes
          cases hyes
        · rw [Pager.keys, hnil] at hold
          exact absurd hold List.not_mem_nil
      | some a => exact lt_of_le_of_lt (h.cursor a hafter old hold) ((hspec.matches_ key hkey).2.2 a hafter)
    refine ⟨fun page hpage => ?_, ?_, fun key hkey => ?_, fun hnone => ?_, fun a ha key hkey => ?_⟩
    · rcases List.mem_append.mp hpage with hold | hnew
      · exact h.short page hold
      · rw [List.mem_singleton.mp hnew]
        exact hspec.short
    · rw [hkeys]
      exact List.pairwise_append.mpr ⟨h.sorted, hspec.sorted, hbefore⟩
    · rw [hkeys] at hkey
      rcases List.mem_append.mp hkey with hold | hnew
      · exact h.starts key hold
      · exact (hspec.matches_ key hnew).2.1
    · exact .inl (Option.isNone_iff_eq_none.mpr hnone)
    · rw [hkeys] at hkey
      obtain ⟨hmem, hle, -⟩ := hspec.cursor a ha
      rcases List.mem_append.mp hkey with hold | hnew
      · exact (hbefore key hold a hmem).le
      · exact hle key hnew

/-- A key that is there is on a page, or lies beyond the cursor. -/
def Pager.Covers (p : Pager) (key : String) : Prop := key ∈ p.keys ∨ p.done = false ∧ Beyond p.after key

theorem Pager.Covers.turn {p : Pager} (h : p.Covers key) (hread : indexOf codec ns kv = .ok index) (hstarts : Starts start key)
    (hkey : key ∈ index.keys) : (p.turn codec ns start kv).Covers key := by
  cases hdone : p.done with
  | true =>
    rw [turn_done hdone]
    exact h
  | false =>
    obtain ⟨keys, next, heq, hspec⟩ := turn_eq start hread hdone
    rw [heq]
    have hkeys : (Pager.mk (p.pages ++ [keys]) next next.isNone).keys = p.keys ++ keys := by simp [Pager.keys]
    rw [Pager.Covers, hkeys]
    rcases h with hold | ⟨-, hbeyond⟩
    · exact .inl (List.mem_append_left _ hold)
    · have hmatch := mem_matching.mpr ⟨hkey, hstarts, hbeyond⟩
      cases hnext : next with
      | none => exact .inl (List.mem_append_right _ (hspec.last hnext key hmatch))
      | some a =>
        rcases (hspec.cursor a hnext).2.2 key hmatch with hin | hlt
        · exact .inl (List.mem_append_right _ hin)
        · refine .inr ⟨rfl, fun b hb => ?_⟩
          rw [← Option.some.inj hb]
          exact hlt

def ahead (keys : List String) (p : Pager) : Finset String := keys.toFinset.filter fun key => Beyond p.after key

theorem card_ahead_turn (start : Option String) (hread : indexOf codec ns kv = .ok index) {keys : List String}
    (hkeys : ∀ key ∈ index.keys, key ∈ keys)
    {p : Pager} (hdone : p.done = false) (hnext : (p.turn codec ns start kv).done = false) :
    (ahead keys (p.turn codec ns start kv)).card < (ahead keys p).card := by
  obtain ⟨page, next, heq, hspec⟩ := turn_eq start hread hdone
  rw [heq] at hnext ⊢
  cases hn : next with
  | none =>
    rw [hn] at hnext
    cases hnext
  | some a =>
    obtain ⟨hmem, -, -⟩ := hspec.cursor a hn
    obtain ⟨hindex, -, hbeyond⟩ := hspec.matches_ a hmem
    refine Finset.card_lt_card ((Finset.ssubset_iff_of_subset fun key hkey => ?_).mpr ⟨a, ?_, ?_⟩)
    · obtain ⟨hin, hafter⟩ := Finset.mem_filter.mp hkey
      refine Finset.mem_filter.mpr ⟨hin, fun b hb => (hbeyond b hb).trans (hafter a rfl)⟩
    · exact Finset.mem_filter.mpr ⟨List.mem_toFinset.mpr (hkeys a hindex), hbeyond⟩
    · intro hself
      exact lt_irrefl a ((Finset.mem_filter.mp hself).2 a rfl)

end Follow

/-! ## Every page -/

section Whole

variable {codec : IndexCodec} {ns : Namespace} {start : Option String} {kvs : ℕ → Kv}

theorem sound_pagerAt (start : Option String) (hread : ∀ n, ∃ index, Listed codec ns (kvs n) index) (n : ℕ) :
    (pagerAt codec ns start kvs n).Sound start := by
  induction n with
  | zero => exact sound_first
  | succ n ih =>
    obtain ⟨index, hindex⟩ := hread n
    exact ih.turn hindex.read

theorem covers_pagerAt (hread : ∀ n, ∃ index, Listed codec ns (kvs n) index) (hstarts : Starts start key) {n : ℕ}
    (hkey : ∀ i < n, key ∈ keysOf codec ns (kvs i)) : (pagerAt codec ns start kvs n).Covers key := by
  induction n with
  | zero => exact .inr ⟨rfl, fun a ha => nomatch ha⟩
  | succ n ih =>
    obtain ⟨index, hindex⟩ := hread n
    have hmem := hkey n (Nat.lt_succ_self n)
    rw [keysOf_eq hindex.read] at hmem
    exact (ih fun i hi => hkey i (Nat.lt_succ_of_lt hi)).turn hindex.read hstarts hmem

theorem pagerAt_ends (hread : ∀ n, ∃ index, Listed codec ns (kvs n) index) {m : ℕ}
    (hshrink : ∀ n ≥ m, ∀ key ∈ keysOf codec ns (kvs (n + 1)), key ∈ keysOf codec ns (kvs n)) :
    ∃ n, (pagerAt codec ns start kvs n).done = true := by
  have hkeys : ∀ n ≥ m, ∀ key ∈ keysOf codec ns (kvs n), key ∈ keysOf codec ns (kvs m) := by
    intro n hn
    induction n, hn using Nat.le_induction with
    | base => exact fun key h => h
    | succ n hn ih => exact fun key h => ih key (hshrink n hn key h)
  by_contra hnever
  have hgoes : ∀ n, (pagerAt codec ns start kvs n).done = false := fun n => Bool.eq_false_iff.mpr fun h => hnever ⟨n, h⟩
  have hless : ∀ k, (ahead (keysOf codec ns (kvs m)) (pagerAt codec ns start kvs (m + k))).card + k ≤
      (ahead (keysOf codec ns (kvs m)) (pagerAt codec ns start kvs m)).card := by
    intro k
    induction k with
    | zero => exact le_refl _
    | succ k ih =>
      obtain ⟨index, hindex⟩ := hread (m + k)
      have hsub := hkeys (m + k) (Nat.le_add_right m k)
      rw [keysOf_eq hindex.read] at hsub
      have hlt := card_ahead_turn start hindex.read hsub (hgoes (m + k)) (hgoes (m + k + 1))
      have hturn : pagerAt codec ns start kvs (m + (k + 1)) =
        (pagerAt codec ns start kvs (m + k)).turn codec ns start (kvs (m + k)) := rfl
      rw [hturn]
      omega
  have hmany := hless ((ahead (keysOf codec ns (kvs m)) (pagerAt codec ns start kvs m)).card + 1)
  omega

end Whole

end CitadelAgent.Apps
