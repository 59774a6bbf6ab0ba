import Mathlib

/-!
# Maps kept in the order of their keys

* `SortedMap` : entries in strictly ascending order of their keys, with `get`, `insert`, `erase` and `keys`;
* `total`, `total_insert`, `total_erase` : a sum over the entries, and how a change moves it;
* `sum_le_total` : a sum over any keys is at most the total, where each term is at most its entry's.
-/

structure SortedMap (K V : Type) [LinearOrder K] where
  entries : List (K × V)
  sorted : entries.Pairwise fun a b => a.1 < b.1

namespace SortedMap

variable {K V : Type} [LinearOrder K]

variable {m : SortedMap K V} {e : K × V} {key : K} {value : V}

theorem ext {n : SortedMap K V} (h : m.entries = n.entries) : m = n := by
  obtain ⟨entries, sorted⟩ := m
  obtain ⟨entries', sorted'⟩ := n
  subst h
  rfl

def empty : SortedMap K V := ⟨[], List.Pairwise.nil⟩

def get (m : SortedMap K V) (key : K) : Option V := (m.entries.find? fun e => decide (e.1 = key)).map Prod.snd

def keys (m : SortedMap K V) : List K := m.entries.map Prod.fst

def below (m : SortedMap K V) (key : K) : List (K × V) := m.entries.filter fun e => decide (e.1 < key)

def above (m : SortedMap K V) (key : K) : List (K × V) := m.entries.filter fun e => decide (key < e.1)

theorem mem_below : e ∈ m.below key ↔ e ∈ m.entries ∧ e.1 < key := by
  simp [below]

theorem mem_above : e ∈ m.above key ↔ e ∈ m.entries ∧ key < e.1 := by
  simp [above]

theorem sorted_around (m : SortedMap K V) {mid : List (K × V)} (hmid : ∀ e ∈ mid, e.1 = key)
    (hone : mid.length ≤ 1) : (m.below key ++ (mid ++ m.above key)).Pairwise fun a b => a.1 < b.1 := by
  rw [List.pairwise_append, List.pairwise_append]
  refine ⟨m.sorted.filter _, ⟨?_, m.sorted.filter _, fun a ha b hb => ?_⟩, fun a ha b hb => ?_⟩
  · match mid, hone with
    | [], _ => exact List.Pairwise.nil
    | [e], _ => exact List.pairwise_singleton _ _
  · rw [hmid a ha]
    exact (mem_above.mp hb).2
  · have ha := (mem_below.mp ha).2
    rcases List.mem_append.mp hb with hb | hb
    · rwa [hmid b hb]
    · exact ha.trans (mem_above.mp hb).2

def insert (m : SortedMap K V) (key : K) (value : V) : SortedMap K V :=
  ⟨m.below key ++ ([(key, value)] ++ m.above key), m.sorted_around (by simp) (by simp)⟩

def erase (m : SortedMap K V) (key : K) : SortedMap K V :=
  ⟨m.below key ++ ([] ++ m.above key), m.sorted_around (by simp) (by simp)⟩

/-! ## The entry of a key -/

theorem nodup_keys (m : SortedMap K V) : m.keys.Nodup := List.pairwise_map.mpr (m.sorted.imp fun h => ne_of_lt h)

theorem key_unique {a b : K × V} (ha : a ∈ m.entries) (hb : b ∈ m.entries) (h : a.1 = b.1) :
    a = b :=
  List.inj_on_of_nodup_map m.nodup_keys ha hb h

theorem get_eq_some : m.get key = some value ↔ (key, value) ∈ m.entries := by
  constructor
  · intro h
    obtain ⟨e, he, rfl⟩ := Option.map_eq_some_iff.mp h
    have hkey : e.1 = key := by simpa using List.find?_some he
    rw [← hkey]
    exact List.mem_of_find?_eq_some he
  · intro h
    have hsome : (m.entries.find? fun e => decide (e.1 = key)).isSome := by
      rw [List.find?_isSome]
      exact ⟨_, h, by simp⟩
    obtain ⟨e, he⟩ := Option.isSome_iff_exists.mp hsome
    have hkey : e.1 = key := by simpa using List.find?_some he
    rw [get, he, key_unique (List.mem_of_find?_eq_some he) h hkey]
    rfl

theorem mem_insert :
    e ∈ (m.insert key value).entries ↔ e = (key, value) ∨ e ∈ m.entries ∧ e.1 ≠ key := by
  simp only [insert, List.mem_append, mem_below, mem_above, List.mem_singleton]
  constructor
  · rintro (⟨he, hlt⟩ | rfl | ⟨he, hlt⟩)
    · exact .inr ⟨he, ne_of_lt hlt⟩
    · exact .inl rfl
    · exact .inr ⟨he, ne_of_gt hlt⟩
  · rintro (rfl | ⟨he, hne⟩)
    · exact .inr (.inl rfl)
    · rcases lt_or_gt_of_ne hne with hlt | hlt
      · exact .inl ⟨he, hlt⟩
      · exact .inr (.inr ⟨he, hlt⟩)

theorem mem_erase :
    e ∈ (m.erase key).entries ↔ e ∈ m.entries ∧ e.1 ≠ key := by
  simp only [erase, List.nil_append, List.mem_append, mem_below, mem_above, ← and_or_left, ne_eq, and_congr_right_iff]
  exact fun _ => ne_iff_lt_or_gt.symm

theorem get_insert (m : SortedMap K V) (key key' : K) (value : V) :
    (m.insert key value).get key' = if key' = key then some value else m.get key' := by
  apply Option.ext
  intro v
  rw [get_eq_some, mem_insert]
  split
  · rename_i h
    subst h
    simp [eq_comm]
  · rename_i h
    rw [get_eq_some]
    simp [h]

theorem get_erase (m : SortedMap K V) (key key' : K) :
    (m.erase key).get key' = if key' = key then none else m.get key' := by
  apply Option.ext
  intro v
  rw [get_eq_some, mem_erase]
  split
  · rename_i h
    simp [h]
  · rename_i h
    rw [get_eq_some]
    simp [h]

/-! ## Sums over the entries -/

theorem entries_eq (m : SortedMap K V) (key : K) :
    m.entries = m.below key ++ (((m.get key).toList.map fun value => (key, value)) ++ m.above key) := by
  have hmid : ∀ e ∈ (m.get key).toList.map fun value => (key, value), e.1 = key := by simp
  have hsorted := m.sorted_around hmid (by cases m.get key <;> simp)
  have : Std.Irrefl fun a b : K × V => a.1 < b.1 := ⟨fun a => lt_irrefl a.1⟩
  have : Std.Asymm fun a b : K × V => a.1 < b.1 := ⟨fun a b h => lt_asymm h⟩
  refine m.sorted.eq_of_mem_iff hsorted fun e => ?_
  simp only [List.mem_append, mem_below, mem_above, List.mem_map, Option.mem_toList]
  constructor
  · intro he
    rcases lt_trichotomy e.1 key with hlt | rfl | hlt
    · exact .inl ⟨he, hlt⟩
    · exact .inr (.inl ⟨e.2, get_eq_some.mpr he, rfl⟩)
    · exact .inr (.inr ⟨he, hlt⟩)
  · rintro (⟨he, -⟩ | ⟨value, hv, rfl⟩ | ⟨he, -⟩)
    · exact he
    · exact get_eq_some.mp hv
    · exact he

def total (m : SortedMap K V) (f : K → V → Nat) : Nat := (m.entries.map fun e => f e.1 e.2).sum

theorem total_insert (m : SortedMap K V) (f : K → V → Nat) (key : K) (value : V) :
    (m.insert key value).total f + (m.get key).elim 0 (f key) = m.total f + f key value := by
  have hm := congrArg (fun l : List (K × V) => (l.map fun e => f e.1 e.2).sum) (m.entries_eq key)
  unfold total
  rw [show (m.entries.map fun e => f e.1 e.2).sum = _ from hm]
  cases m.get key with
  | none => simp [insert]; omega
  | some old => simp [insert]; omega

theorem total_erase (m : SortedMap K V) (f : K → V → Nat) (key : K) :
    (m.erase key).total f + (m.get key).elim 0 (f key) = m.total f := by
  have hm := congrArg (fun l : List (K × V) => (l.map fun e => f e.1 e.2).sum) (m.entries_eq key)
  unfold total
  rw [show (m.entries.map fun e => f e.1 e.2).sum = _ from hm]
  cases m.get key with
  | none => simp [erase]
  | some old => simp [erase]; omega

theorem sum_le_total (m : SortedMap K V) (f : K → V → Nat) (g : K → Nat)
    (h : ∀ key, g key = 0 ∨ ∃ value, m.get key = some value ∧ g key ≤ f key value) (s : Finset K) :
    ∑ key ∈ s, g key ≤ m.total f := by
  have hkeys : ∑ key ∈ s, g key ≤ ∑ key ∈ m.keys.toFinset, g key := by
    rw [← Finset.sum_filter_ne_zero]
    refine Finset.sum_le_sum_of_subset fun key hkey => ?_
    obtain ⟨-, hne⟩ := Finset.mem_filter.mp hkey
    obtain ⟨value, hv, -⟩ := (h key).resolve_left hne
    exact List.mem_toFinset.mpr (List.mem_map.mpr ⟨_, get_eq_some.mp hv, rfl⟩)
  refine hkeys.trans ?_
  rw [List.sum_toFinset _ m.nodup_keys, keys, List.map_map, total]
  refine List.sum_le_sum fun e he => ?_
  rcases h e.1 with h0 | ⟨value, hv, hle⟩
  · simp [h0]
  · obtain rfl : value = e.2 := congrArg Prod.snd (key_unique (get_eq_some.mp hv) he rfl)
    exact hle

theorem mem_keys : key ∈ m.keys ↔ (m.get key).isSome = true := by
  constructor
  · intro h
    obtain ⟨e, he, rfl⟩ := List.mem_map.mp h
    rw [get_eq_some.mpr he]
    rfl
  · intro h
    obtain ⟨value, hvalue⟩ := Option.isSome_iff_exists.mp h
    exact List.mem_map.mpr ⟨(key, value), get_eq_some.mp hvalue, rfl⟩

theorem mem_keys_insert {key' : K} :
    key' ∈ (m.insert key value).keys ↔ key' = key ∨ key' ∈ m.keys := by
  rw [mem_keys, get_insert, mem_keys]
  by_cases h : key' = key <;> simp [h]

theorem mem_keys_erase {key' : K} : key' ∈ (m.erase key).keys ↔ key' ≠ key ∧ key' ∈ m.keys := by
  rw [mem_keys, get_erase, mem_keys]
  by_cases h : key' = key <;> simp [h]

/-! ## Every value at once -/

def mapValues {W : Type} (f : V → W) (m : SortedMap K V) : SortedMap K W :=
  ⟨m.entries.map fun e => (e.1, f e.2), List.pairwise_map.mpr m.sorted⟩

@[simp] theorem keys_mapValues {W : Type} (f : V → W) (m : SortedMap K V) : (m.mapValues f).keys = m.keys := by
  simp [keys, mapValues]

/-- Every value changed or dropped, as `retain` does with a closure that may change it. -/
def filterMap {W : Type} (f : K → V → Option W) (m : SortedMap K V) : SortedMap K W where
  entries := m.entries.filterMap fun e => (f e.1 e.2).map (e.1, ·)
  sorted := by
    refine m.sorted.filterMap _ fun a b hlt x hx y hy => ?_
    obtain ⟨-, -, rfl⟩ := Option.map_eq_some_iff.mp hx
    obtain ⟨-, -, rfl⟩ := Option.map_eq_some_iff.mp hy
    exact hlt

theorem get_filterMap {W : Type} (f : K → V → Option W) (m : SortedMap K V) (key : K) :
    (m.filterMap f).get key = (m.get key).bind (f key) := by
  apply Option.ext
  intro w
  simp only [get_eq_some, filterMap, List.mem_filterMap, Option.map_eq_some_iff, Option.bind_eq_some_iff, Prod.mk.injEq]
  constructor
  · rintro ⟨⟨k, v⟩, hmem, w', hw, rfl, rfl⟩
    exact ⟨v, hmem, hw⟩
  · rintro ⟨v, hmem, hw⟩
    exact ⟨(key, v), hmem, w, hw, rfl, rfl⟩

/-! ## Building a map -/

def ofEntries (entries : List (K × V)) : SortedMap K V := entries.foldl (fun m e => m.insert e.1 e.2) empty

theorem entries_insert_last (h : ∀ e ∈ m.entries, e.1 < key) (value : V) :
    (m.insert key value).entries = m.entries ++ [(key, value)] := by
  have hbelow : m.below key = m.entries := List.filter_eq_self.mpr fun e he => by simpa using h e he
  have habove : m.above key = [] := List.filter_eq_nil_iff.mpr fun e he => by simpa using (h e he).le
  simp [insert, hbelow, habove]

theorem ofEntries_entries (m : SortedMap K V) : ofEntries m.entries = m := by
  have hall : ∀ (rest : List (K × V)) (n : SortedMap K V), (n.entries ++ rest).Pairwise (fun a b => a.1 < b.1) →
      (rest.foldl (fun m e => m.insert e.1 e.2) n).entries = n.entries ++ rest := by
    intro rest
    induction rest with
    | nil => simp
    | cons e rest ih =>
      intro n hs
      have hlast : (n.insert e.1 e.2).entries = n.entries ++ [e] :=
        entries_insert_last (fun x hx => (List.pairwise_append.mp hs).2.2 x hx e (by simp)) e.2
      rw [List.foldl_cons, ih _ (by rw [hlast]; simpa using hs), hlast]
      simp
  exact ext (hall m.entries empty m.sorted)

end SortedMap
