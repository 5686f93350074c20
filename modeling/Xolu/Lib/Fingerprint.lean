/-
# Fingerprints of tables

Two tables are compared by a text: a line for each row, the lines sorted and joined.  The order
of the rows does not matter for it (`ofLines_perm`).  `groupCount` is a GROUP BY with a COUNT,
and `scan` reads rows one after the other, where one that cannot be read fails the whole.
-/
import Mathlib.Algebra.BigOperators.Group.List.Basic
import Mathlib.Algebra.GroupWithZero.Nat
import Mathlib.Data.List.Dedup
import Mathlib.Data.List.Sort
import Mathlib.Data.String.Basic

namespace Fingerprint

open List
/-- The lines sorted and joined. -/
def ofLines (lines : List String) : String := "\n".intercalate (lines.insertionSort (· ≤ ·))

/-- The fingerprint does not depend on the order of the lines. -/
theorem ofLines_perm {xs ys : List String} (h : xs.Perm ys) : ofLines xs = ofLines ys := by
  unfold ofLines
  congr 1
  apply List.Perm.eq_of_pairwise (fun _ _ _ _ => le_antisymm)
    (pairwise_insertionSort _ _) (pairwise_insertionSort _ _)
  exact (perm_insertionSort _ _).trans (h.trans (perm_insertionSort _ _).symm)

variable {lines : List String}

theorem length_intercalate (h : lines ≠ []) :
    ("\n".intercalate lines).length + 1 = (lines.map fun x => x.length + 1).sum := by
  induction lines with
  | nil => exact absurd rfl h
  | cons x lines ih =>
    cases lines with
    | nil => simp
    | cons y lines =>
      rw [String.intercalate_cons_cons, String.length_append, String.length_append, Nat.add_assoc,
        ih (cons_ne_nil _ _), map_cons, sum_cons]
      rfl

theorem length_ofLines (h : lines ≠ []) :
    (ofLines lines).length + 1 = (lines.map fun x => x.length + 1).sum := by
  have hperm := perm_insertionSort (· ≤ ·) lines
  rw [← (hperm.map _).sum_eq]
  exact length_intercalate fun hnil => h (nil_perm.mp (hnil ▸ hperm))

/-- More lines make a longer fingerprint. -/
theorem ofLines_ne_of_more {xs ys extra : List String} (h : ys.Perm (xs ++ extra))
    (hextra : extra ≠ []) (hne : ∀ x ∈ extra, x ≠ "") : ofLines ys ≠ ofLines xs := by
  intro heq
  obtain ⟨x, extra, rfl⟩ := exists_cons_of_ne_nil hextra
  have hlen := @length_ofLines (xs ++ x :: extra) fun hnil =>
    hextra (append_eq_nil_iff.mp hnil).2
  rw [← ofLines_perm h, heq, map_append, sum_append, map_cons, sum_cons] at hlen
  by_cases hxs : xs = []
  · -- the fingerprint of no lines is empty, that of `x` is not
    have hx : x.length ≠ 0 := fun h0 => hne x mem_cons_self (String.length_eq_zero_iff.mp h0)
    have hempty : (ofLines xs).length = 0 := by
      rw [hxs]
      rfl
    omega
  · have hlen' := length_ofLines hxs
    omega

/-! ### Reading rows -/

section

variable {α β : Type} {f : α → Option β} {g : β → α} {xs : List α} {ys : List β}

/-- The rows read, if all of them can be. -/
def scan (f : α → Option β) (xs : List α) : Option (List β) :=
  if ∀ x ∈ xs, (f x).isSome then some (xs.filterMap f) else none

/-- Rows of which one cannot be read. -/
theorem scan_eq_none {x : α} (hx : x ∈ xs) (h : f x = none) : scan f xs = none :=
  if_neg fun hall => by simpa [h] using hall x hx

/-- Rows are read, in whatever order they come. -/
theorem scan_of_perm_map {γ : Type} {zs : List γ} {g : γ → α} {l : γ → β}
    (hg : ∀ z, f (g z) = some (l z)) (h : xs.Perm (zs.map g)) :
    ∃ ys, scan f xs = some ys ∧ ys.Perm (zs.map l) := by
  refine ⟨xs.filterMap f, if_pos fun x hx => ?_, (h.filterMap f).trans ?_⟩
  · obtain ⟨z, -, rfl⟩ := mem_map.mp (h.mem_iff.mp hx)
    rw [hg, Option.isSome_some]
  · rw [filterMap_map, show f ∘ g = some ∘ l from funext hg, filterMap_eq_map]

/-- Rows are read back, in whatever order they come. -/
theorem scan_of_perm (hg : ∀ y, f (g y) = some y) (h : xs.Perm (ys.map g)) :
    ∃ ys', scan f xs = some ys' ∧ ys'.Perm ys := by
  obtain ⟨ys', hscan, hperm⟩ := scan_of_perm_map (l := id) hg h
  exact ⟨ys', hscan, map_id ys ▸ hperm⟩

end

/-! ### Counting rows -/

section

variable {κ : Type} [DecidableEq κ]

/-- Each key with how often it is there. -/
def groupCount (keys : List κ) : List (κ × Nat) :=
  keys.dedup.map fun k => (k, keys.countP fun j => decide (j = k))

theorem mem_groupCount {keys : List κ} {g : κ × Nat} :
    g ∈ groupCount keys ↔ 0 < g.2 ∧ g.2 = keys.countP fun j => decide (j = g.1) := by
  have hpos : ∀ k, k ∈ keys ↔ 0 < keys.countP fun j => decide (j = k) := fun k => by
    rw [countP_pos_iff]
    simp only [decide_eq_true_eq, exists_eq_right]
  unfold groupCount
  rw [mem_map]
  constructor
  · rintro ⟨k, hk, rfl⟩
    exact ⟨(hpos k).mp (mem_dedup.mp hk), rfl⟩
  · rintro ⟨h, hcount⟩
    rw [hcount] at h
    exact ⟨g.1, mem_dedup.mpr ((hpos g.1).mpr h), Prod.ext rfl hcount.symm⟩

theorem nodup_groupCount (keys : List κ) : (groupCount keys).Nodup :=
  (nodup_dedup keys).map fun _ _ h => congrArg Prod.fst h

end

end Fingerprint
