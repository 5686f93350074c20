/-
# Derived indexes

An index keeps, for every key, the join of what the rows of a table contribute there.  It is
maintained in two ways: a row's contribution is joined in, which is safe at any time, or the
keys of a scope are recomputed from the table, which is how a contribution is taken back
where the joined values have no inverse.  Both write a batch of keys.

`total` is the index a rebuild gives.  The rules say when maintenance gives the same: after a
row is added, and after a row has been replaced by another, if the scope covers what the
replaced row contributed.
-/
import Mathlib.Data.List.Nodup
import Mathlib.Order.BoundedOrder.Lattice

namespace Derived

open List
variable {ρ κ α : Type*} [SemilatticeSup α] [OrderBot α]

/-- The join of what the rows contribute at a key. -/
def total (c : ρ → κ → α) (rows : List ρ) (k : κ) : α := rows.foldr (fun r a => c r k ⊔ a) ⊥

variable {c : ρ → κ → α} {rows rows' others : List ρ} {old new r : ρ} {k : κ} {x : α}

@[simp] theorem total_nil : total c [] k = ⊥ := rfl

@[simp] theorem total_cons : total c (r :: rows) k = c r k ⊔ total c rows k := rfl

theorem total_le_iff : total c rows k ≤ x ↔ ∀ r ∈ rows, c r k ≤ x := by
  induction rows with
  | nil => simp
  | cons r rows ih => rw [total_cons, sup_le_iff, ih, forall_mem_cons]

theorem le_total_of_mem (h : r ∈ rows) : c r k ≤ total c rows k := total_le_iff.mp le_rfl r h

theorem total_eq_bot (h : ∀ r ∈ rows, c r k = ⊥) : total c rows k = ⊥ :=
  le_bot_iff.mp (total_le_iff.mpr fun r hr => (h r hr).le)

theorem total_congr {κ' : Type*} {c' : ρ → κ' → α} {k' : κ'} (h : ∀ r ∈ rows, c r k = c' r k') :
    total c rows k = total c' rows k' := by
  apply eq_of_forall_ge_iff
  intro x
  rw [total_le_iff, total_le_iff]
  exact forall₂_congr fun r hr => by rw [h r hr]

/-- Tables that agree on the rows that contribute. -/
theorem total_congr_of_ne_bot (h : ∀ r, c r k ≠ ⊥ → (r ∈ rows ↔ r ∈ rows')) :
    total c rows k = total c rows' k := by
  apply eq_of_forall_ge_iff
  intro x
  rw [total_le_iff, total_le_iff]
  refine forall_congr' fun r => ?_
  by_cases hr : c r k = ⊥
  · rw [hr]
    exact iff_of_true (fun _ => bot_le) fun _ => bot_le
  · rw [h r hr]

/-- Only the set of rows matters. -/
theorem total_congr_mem (h : ∀ r, r ∈ rows ↔ r ∈ rows') : total c rows k = total c rows' k :=
  total_congr_of_ne_bot fun r _ => h r

/-- Rows that contribute nothing can be left out. -/
theorem total_eq_of_subset (hsub : ∀ r ∈ rows', r ∈ rows)
    (hbot : ∀ r ∈ rows, r ∉ rows' → c r k = ⊥) : total c rows k = total c rows' k := by
  refine total_congr_of_ne_bot fun r hr => ⟨fun hmem => ?_, hsub r⟩
  by_contra hnot
  exact hr (hbot r hmem hnot)

/-- Two parts of a table. -/
theorem total_eq_sup_of_mem (h : ∀ r, r ∈ rows ↔ r ∈ rows' ∨ r ∈ others) :
    total c rows k = total c rows' k ⊔ total c others k := by
  apply eq_of_forall_ge_iff
  intro x
  simp only [sup_le_iff, total_le_iff, h, or_imp, forall_and]

/-- One row and the others. -/
theorem total_eq_sup (h : ∀ r, r ∈ rows ↔ r = new ∨ r ∈ others) :
    total c rows k = c new k ⊔ total c others k := by
  exact total_congr_mem fun r => (h r).trans mem_cons.symm

/-! ### Replacing a row -/

/-- **Recompute, then join.**  The scope covers what the old row contributed; the new row may
contribute anywhere. -/
theorem recompute_sup {D : κ → Prop} [DecidablePred D]
    (hrows : ∀ r, r ∈ rows ↔ r = old ∨ r ∈ others)
    (hrows' : ∀ r, r ∈ rows' ↔ r = new ∨ r ∈ others) (hold : ∀ k, ¬ D k → c old k = ⊥) (k : κ) :
    (if D k then total c rows' k else total c rows k) ⊔ c new k = total c rows' k := by
  rw [total_eq_sup hrows', total_eq_sup hrows]
  split
  · rw [sup_comm, ← sup_assoc, sup_idem]
  · rw [hold k ‹_›, bot_sup_eq, sup_comm]

/-! ### Batches -/

section batch

variable {ι β : Type*} [DecidableEq κ]

/-- A map after a batch of writes. -/
def batch (l : List ι) (key : ι → κ) (val : ι → β) (f : κ → β) : κ → β :=
  l.foldl (fun g i => Function.update g (key i) (val i)) f

variable {l : List ι} {key : ι → κ} {val : ι → β} {f : κ → β}

theorem batch_of_ne (h : ∀ i ∈ l, key i ≠ k) : batch l key val f k = f k := by
  induction l generalizing f with
  | nil => rfl
  | cons i l ih =>
    rw [forall_mem_cons] at h
    exact (ih h.2).trans (Function.update_of_ne h.1.symm _ _)

/-- A batch that writes no key twice. -/
theorem batch_of_mem {i : ι} (hl : (l.map key).Nodup) (hi : i ∈ l) :
    batch l key val f (key i) = val i := by
  induction l generalizing f with
  | nil => cases hi
  | cons j l ih =>
    rw [map_cons, nodup_cons] at hl
    rcases mem_cons.mp hi with rfl | hi
    · have hne : ∀ j ∈ l, key j ≠ key i := fun j hj e => hl.1 (mem_map.mpr ⟨j, hj, e⟩)
      exact (batch_of_ne hne).trans (Function.update_self ..)
    · exact ih hl.2 hi

end batch

end Derived
