/-
# Key-value stores in the order of their keys

The entries of a store are in the strict order of their keys, so that a key has one value, and an
iterator reads them in that order between two bounds.  Keys are set and deleted.
-/
import Mathlib.Data.List.Sort

/-- A store with its entries in the order of their keys. -/
@[ext] structure SortedMap (K V : Type*) [LT K] where
  entries : List (K × V)
  sorted : entries.Pairwise fun p q => p.1 < q.1

namespace SortedMap

open List
variable {K V : Type*} [LT K]

/-- The keys, in their order. -/
def keys (m : SortedMap K V) : List K := m.entries.map Prod.fst

/-- The store without entries. -/
def empty : SortedMap K V := ⟨[], .nil⟩

theorem pairwise_keys (m : SortedMap K V) : m.keys.Pairwise (· < ·) := pairwise_map.mpr m.sorted

/-- The store without some keys. -/
def deleteAll [DecidableEq K] (m : SortedMap K V) (ks : List K) : SortedMap K V where
  entries := m.entries.filter (·.1 ∉ ks)
  sorted := m.sorted.filter _

variable {m : SortedMap K V}

theorem mem_keys_deleteAll [DecidableEq K] {ks : List K} {k : K} :
    k ∈ (m.deleteAll ks).keys ↔ k ∈ m.keys ∧ k ∉ ks := by
  simp only [keys, deleteAll, mem_map, mem_filter, decide_eq_true_eq]
  grind

/-- Two deletions agree if they delete the same keys of the store. -/
theorem deleteAll_eq_iff [DecidableEq K] {ks ks' : List K} :
    m.deleteAll ks = m.deleteAll ks' ↔ ∀ k ∈ m.keys, k ∈ ks ↔ k ∈ ks' := by
  constructor
  · intro h k hk
    have hmem : k ∈ (m.deleteAll ks).keys ↔ k ∈ (m.deleteAll ks').keys := by rw [h]
    rwa [mem_keys_deleteAll, mem_keys_deleteAll, and_iff_right hk, and_iff_right hk,
      not_iff_not] at hmem
  · intro h
    ext1
    refine filter_congr fun p hp => ?_
    simp only [h p.1 (mem_map_of_mem hp)]

variable [DecidableLT K]

/-- The keys an iterator reads: from the lower bound on, and below the upper one if there is one. -/
def iter (m : SortedMap K V) (lower : K) (upper : Option K) : List K :=
  m.keys.filter fun k => !decide (k < lower) && upper.all fun u => decide (k < u)

/-- The store without the keys from the lower bound on and below the upper one; no key is below no
bound. -/
def deleteRange (m : SortedMap K V) (lower : K) (upper : Option K) : SortedMap K V where
  entries := m.entries.filter fun p => decide (p.1 < lower) || !upper.any fun u => decide (p.1 < u)
  sorted := m.sorted.filter _

/-- The entries an iterator reads. -/
def scan (m : SortedMap K V) (lower : K) (upper : Option K) : List (K × V) :=
  m.entries.filter fun p => !decide (p.1 < lower) && upper.all fun u => decide (p.1 < u)

/-- The store with a key set to a value. -/
def set [IsTrans K (· < ·)] (m : SortedMap K V) (k : K) (v : V) : SortedMap K V where
  entries := m.entries.filter (·.1 < k) ++ (k, v) :: m.entries.filter (k < ·.1)
  sorted := by
    have hafter : ∀ p ∈ m.entries.filter (k < ·.1), k < p.1 := fun p hp => by
      simpa using (mem_filter.mp hp).2
    have hbefore : ∀ p ∈ m.entries.filter (·.1 < k), p.1 < k := fun p hp => by
      simpa using (mem_filter.mp hp).2
    refine pairwise_append.mpr
      ⟨m.sorted.filter _, pairwise_cons.mpr ⟨hafter, m.sorted.filter _⟩, ?_⟩
    intro p hp q hq
    rcases mem_cons.mp hq with rfl | hq
    · exact hbefore p hp
    · exact IsTrans.trans p.1 k q.1 (hbefore p hp) (hafter q hq)

/-- The value of a key. -/
def get [DecidableEq K] (m : SortedMap K V) (k : K) : Option V :=
  (m.entries.find? fun p => p.1 = k).map Prod.snd

variable {m : SortedMap K V} {k k' lower : K} {upper : Option K}

theorem mem_iter : k ∈ m.iter lower upper ↔
    k ∈ m.keys ∧ ¬ k < lower ∧ upper.all fun u => decide (k < u) := by
  simp [iter]

theorem mem_keys_deleteRange : k ∈ (m.deleteRange lower upper).keys ↔
    k ∈ m.keys ∧ (k < lower ∨ ¬ upper.any fun u => decide (k < u)) := by
  simp only [keys, deleteRange, mem_map, mem_filter, Bool.or_eq_true, decide_eq_true_eq,
    Bool.not_eq_true', Bool.not_eq_true]
  constructor
  · rintro ⟨p, ⟨hp, hout⟩, rfl⟩
    exact ⟨⟨p, hp, rfl⟩, hout⟩
  · rintro ⟨⟨p, hp, rfl⟩, hout⟩
    exact ⟨p, ⟨hp, hout⟩, rfl⟩

theorem pairwise_iter (m : SortedMap K V) (lower : K) (upper : Option K) :
    (m.iter lower upper).Pairwise (· < ·) :=
  m.pairwise_keys.filter _

section Order

variable [IsStrictTotalOrder K (· < ·)]

omit [DecidableLT K] in
theorem lt_or_lt_iff : k' < k ∨ k < k' ↔ k' ≠ k := by
  rcases trichotomous_of (· < ·) k' k with h | rfl | h
  · exact iff_of_true (.inl h) (ne_of_irrefl h)
  · simp [irrefl]
  · exact iff_of_true (.inr h) (ne_of_irrefl h).symm

variable {v : V}

theorem mem_entries_set {p : K × V} :
    p ∈ (m.set k v).entries ↔ p = (k, v) ∨ p ∈ m.entries ∧ p.1 ≠ k := by
  rw [← lt_or_lt_iff]
  simp only [set, mem_append, mem_cons, mem_filter, decide_eq_true_eq]
  tauto

theorem mem_keys_set : k' ∈ (m.set k v).keys ↔ k' = k ∨ k' ∈ m.keys ∧ k' ≠ k := by
  simp only [keys, mem_map, mem_entries_set]
  grind

/-- A key that is not read does not matter. -/
theorem scan_set (h : ¬ (¬ k < lower ∧ upper.all fun u => decide (k < u))) :
    (m.set k v).scan lower upper = m.scan lower upper := by
  refine ((m.set k v).sorted.filter _).eq_of_mem_iff (m.sorted.filter _) fun p => ?_
  rw [scan, mem_filter, mem_filter, mem_entries_set]
  constructor
  · rintro ⟨rfl | ⟨hp, -⟩, hread⟩
    · simp only [Bool.and_eq_true, Bool.not_eq_true', decide_eq_false_iff_not] at hread
      exact absurd hread h
    · exact ⟨hp, hread⟩
  · rintro ⟨hp, hread⟩
    refine ⟨.inr ⟨hp, ?_⟩, hread⟩
    rintro rfl
    simp only [Bool.and_eq_true, Bool.not_eq_true', decide_eq_false_iff_not] at hread
    exact h hread

variable [DecidableEq K]

omit [DecidableLT K] in
/-- A key has one value. -/
theorem get_eq_some_iff : m.get k = some v ↔ (k, v) ∈ m.entries := by
  have hnodup : (m.entries.map Prod.fst).Nodup := m.pairwise_keys.imp fun h => ne_of_irrefl h
  constructor
  · intro h
    obtain ⟨p, hfind, rfl⟩ := Option.map_eq_some_iff.mp h
    have hkey : p.1 = k := by simpa using find?_some hfind
    rw [← hkey]
    exact mem_of_find?_eq_some hfind
  · intro h
    rcases hfind : m.entries.find? (fun p => p.1 = k) with - | p
    · have := find?_eq_none.mp hfind (k, v) h
      simp at this
    · have hkey : p.1 = k := by simpa using find?_some hfind
      have hp := mem_of_find?_eq_some hfind
      rw [get, hfind, inj_on_of_nodup_map hnodup hp h hkey]
      rfl

theorem get_set (v : V) : (m.set k v).get k' = if k' = k then some v else m.get k' := by
  refine Option.ext fun v' => ?_
  rw [get_eq_some_iff, mem_entries_set, Prod.mk.injEq]
  split_ifs with h
  · simp [h, eq_comm]
  · rw [get_eq_some_iff]
    simp [h]

end Order

end SortedMap
