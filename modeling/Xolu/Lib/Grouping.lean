/-
# Groups and first occurrences by a key

`addToGroup` and `keepNew` are the rounds of two loops over a list: the first shares the
elements out to groups by their key, the second keeps the first element of each key.  Two
elements come into one group exactly when they have one key, so the groups are those of a
relation just when the key tells the elements apart as the relation does.
-/
import Mathlib.Data.List.Induction
import Xolu.Lib.Keyed

namespace Grouping

open List Keyed

variable {ρ κ : Type*} (key : ρ → κ)

/-- An element joins the group of its key, or opens one at the end. -/
def addToGroup [DecidableEq κ] (groups : List (κ × List ρ)) (r : ρ) : List (κ × List ρ) :=
  match groups.find? fun g => decide (g.1 = key r) with
  | some g => put Prod.fst groups (key r, g.2 ++ [r])
  | none => groups ++ [(key r, [r])]

/-- An element is kept unless one with its key has been. -/
def keepNew [DecidableEq κ] (kept : List ρ) (r : ρ) : List ρ :=
  if key r ∈ kept.map key then kept else kept ++ [r]

/-- The groups of the elements read so far. -/
structure Groups (rs : List ρ) (groups : List (κ × List ρ)) : Prop where
  keys : UniqueKey Prod.fst groups
  own : ∀ g ∈ groups, ∀ r ∈ g.2, key r = g.1
  shared : groups.flatMap Prod.snd ~ rs

/-- The elements kept of those read so far. -/
structure Keeps (rs kept : List ρ) : Prop where
  keys : UniqueKey key kept
  read : kept ⊆ rs
  every : ∀ r ∈ rs, key r ∈ kept.map key

/-- Two elements are in one group exactly when they agree, and the groups share out the
elements. -/
structure GroupedBy (agree : ρ → ρ → Prop) (rs : List ρ) (groups : List (List ρ)) : Prop where
  same : ∀ r ∈ rs, ∀ s ∈ rs, (∃ g ∈ groups, r ∈ g ∧ s ∈ g) ↔ agree r s
  shared : groups.flatten ~ rs
  count : (groups.map length).sum = rs.length

/-- Every element agrees with one that is kept, and no two that are kept agree. -/
structure DistinctBy (agree : ρ → ρ → Prop) (rs kept : List ρ) : Prop where
  read : kept ⊆ rs
  every : ∀ r ∈ rs, ∃ u ∈ kept, agree r u
  differ : kept.Pairwise fun u v => ¬ agree u v

variable {key} {rs kept : List ρ} {groups : List (κ × List ρ)} {agree : ρ → ρ → Prop}

/-- Two elements are in one group exactly when they have one key. -/
theorem Groups.same_iff (h : Groups key rs groups) {r s : ρ} (hr : r ∈ rs) (hs : s ∈ rs) :
    (∃ g ∈ groups.map Prod.snd, r ∈ g ∧ s ∈ g) ↔ key r = key s := by
  constructor
  · rintro ⟨_, hmem, hr, hs⟩
    obtain ⟨g, hg, rfl⟩ := mem_map.mp hmem
    rw [h.own g hg r hr, h.own g hg s hs]
  · intro hk
    obtain ⟨g, hg, hrg⟩ := mem_flatMap.mp (h.shared.mem_iff.mpr hr)
    obtain ⟨g', hg', hsg⟩ := mem_flatMap.mp (h.shared.mem_iff.mpr hs)
    have heq : g.1 = g'.1 := by rw [← h.own g hg r hrg, ← h.own g' hg' s hsg, hk]
    obtain rfl := h.keys.eq_of_key hg hg' heq
    exact ⟨g.2, mem_map_of_mem hg, hrg, hsg⟩

theorem Groups.groupedBy_iff (h : Groups key rs groups) :
    GroupedBy agree rs (groups.map Prod.snd) ↔ ∀ r ∈ rs, ∀ s ∈ rs, key r = key s ↔ agree r s := by
  constructor
  · intro hg r hr s hs
    rw [← h.same_iff hr hs]
    exact hg.same r hr s hs
  · intro hkey
    refine ⟨fun r hr s hs => (h.same_iff hr hs).trans (hkey r hr s hs), h.shared, ?_⟩
    rw [← length_flatten]
    exact h.shared.length_eq

/-- Where elements that agree have one key, it is the other direction that a key can miss. -/
theorem Keeps.distinctBy_iff (h : Keeps key rs kept) (ha : Equivalence agree)
    (hkey : ∀ r s, agree r s → key r = key s) :
    DistinctBy agree rs kept ↔ ∀ r ∈ rs, ∀ s ∈ rs, key r = key s ↔ agree r s := by
  constructor
  · intro hd r hr s hs
    refine ⟨fun hk => ?_, hkey r s⟩
    obtain ⟨u, hu, hru⟩ := hd.every r hr
    obtain ⟨v, hv, hsv⟩ := hd.every s hs
    have heq : key u = key v := by rw [← hkey r u hru, hk, hkey s v hsv]
    obtain rfl := h.keys.eq_of_key hu hv heq
    exact ha.trans hru (ha.symm hsv)
  · intro hiff
    refine ⟨h.read, fun r hr => ?_, ?_⟩
    · obtain ⟨u, hu, hk⟩ := mem_map.mp (h.every r hr)
      exact ⟨u, hu, (hiff r hr u (h.read hu)).mp hk.symm⟩
    · exact (pairwise_map.mp h.keys).imp fun hne hag => hne (hkey _ _ hag)

variable [DecidableEq κ]

theorem Groups.add (h : Groups key rs groups) (r : ρ) :
    Groups key (rs ++ [r]) (addToGroup key groups r) := by
  unfold addToGroup
  split
  next g hg =>
    have hmem := mem_of_find?_eq_some hg
    have hk : g.1 = key r := by simpa using find?_some hg
    refine ⟨h.keys.put, ?_, ?_⟩
    · intro g' hg' s hs
      obtain rfl | ⟨hold, -⟩ := (mem_put hmem hk).mp hg'
      · obtain hs | hs := mem_append.mp hs
        · exact (h.own g hmem s hs).trans hk
        · rw [mem_singleton.mp hs]
      · exact h.own g' hold s hs
    · have hkey : g.1 = (key r, g.2 ++ [r]).1 := hk
      obtain ⟨l, l', rfl, hput⟩ := h.keys.put_split hmem hkey
      have hshared := h.shared.append_right [r]
      rw [hput]
      simp only [flatMap_append, flatMap_cons, append_assoc] at hshared ⊢
      refine Perm.trans (.append_left _ (.append_left _ perm_append_comm)) ?_
      simpa using hshared
  next hnone =>
    have hnew : ∀ g ∈ groups, g.1 ≠ key r := by simpa using find?_eq_none.mp hnone
    refine ⟨h.keys.concat hnew, ?_, ?_⟩
    · intro g hg s hs
      obtain hg | hg := mem_append.mp hg
      · exact h.own g hg s hs
      · obtain rfl := mem_singleton.mp hg
        rw [mem_singleton.mp hs]
    · simpa using h.shared.append_right [r]

theorem groups_foldl (rs : List ρ) : Groups key rs (rs.foldl (addToGroup key) []) := by
  induction rs using reverseRecOn with
  | nil => exact ⟨nodup_nil, by simp, .nil⟩
  | append_singleton rs r ih =>
    rw [foldl_append]
    exact ih.add r

theorem Keeps.keepNew (h : Keeps key rs kept) (r : ρ) :
    Keeps key (rs ++ [r]) (keepNew key kept r) := by
  unfold Grouping.keepNew
  split
  next hseen =>
    refine ⟨h.keys, List.Subset.trans h.read (subset_append_left ..), ?_⟩
    intro s hs
    obtain hs | hs := mem_append.mp hs
    · exact h.every s hs
    · rwa [mem_singleton.mp hs]
  next hnew =>
    refine ⟨h.keys.concat fun s hs hk => hnew (hk ▸ mem_map_of_mem hs),
      append_subset.mpr ⟨List.Subset.trans h.read (subset_append_left ..),
        subset_append_right ..⟩, ?_⟩
    intro s hs
    rw [map_append]
    obtain hs | hs := mem_append.mp hs
    · exact mem_append_left _ (h.every s hs)
    · exact mem_append_right _ (mem_map_of_mem hs)

theorem keeps_foldl (rs : List ρ) : Keeps key rs (rs.foldl (keepNew key) []) := by
  induction rs using reverseRecOn with
  | nil => exact ⟨nodup_nil, nil_subset _, by simp⟩
  | append_singleton rs r ih =>
    rw [foldl_append]
    exact ih.keepNew r

end Grouping
