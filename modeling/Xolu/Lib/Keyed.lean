/-
# Tables with a key

A table is a list of rows, and `key : ρ → κ` names a row; `UniqueKey` is a primary-key
constraint.  `put` overwrites the row of a key, as an UPDATE through the key does, and
`upsert` also inserts it, as an INSERT ... ON CONFLICT DO UPDATE does.  A row is deleted by
a filter on the key.  The lemmas say which rows a table has afterwards, what a lookup by key then
finds and how a column sum changes.
-/
import Mathlib.Algebra.BigOperators.Group.List.Basic
import Mathlib.Data.List.Nodup
import Mathlib.Tactic.Abel

namespace Keyed

open List
variable {ρ κ : Type*} {key : ρ → κ}

/-- No two rows of the table share a key. -/
def UniqueKey (key : ρ → κ) (rows : List ρ) : Prop := (rows.map key).Nodup

variable {rows : List ρ} {row old r s : ρ}

theorem UniqueKey.eq_of_key (h : UniqueKey key rows) (hr : r ∈ rows) (hs : s ∈ rows)
    (hk : key r = key s) : r = s :=
  inj_on_of_nodup_map h hr hs hk

/-- The constraint speaks of the keys alone. -/
theorem UniqueKey.of_keys {rows' : List ρ} (h : UniqueKey key rows)
    (hkeys : rows'.map key = rows.map key) : UniqueKey key rows' := by
  unfold UniqueKey
  rwa [hkeys]

/-- Rows that are changed off their key. -/
theorem UniqueKey.map_of_key {f : ρ → ρ} (h : UniqueKey key rows)
    (hf : ∀ r, key (f r) = key r) : UniqueKey key (rows.map f) := by
  apply h.of_keys
  rw [map_map]
  exact map_congr_left fun r _ => hf r

/-- A row with a new key. -/
theorem UniqueKey.concat (h : UniqueKey key rows) (hnew : ∀ r ∈ rows, key r ≠ key row) :
    UniqueKey key (rows ++ [row]) := by
  unfold UniqueKey
  rw [map_append]
  apply List.Nodup.append h (nodup_singleton _)
  simpa using hnew

/-- The rows before and after the row of a key have other keys. -/
theorem UniqueKey.split (h : UniqueKey key rows) (hr : r ∈ rows) :
    ∃ l l', rows = l ++ r :: l' ∧ key r ∉ l.map key ∧ key r ∉ l'.map key := by
  obtain ⟨l, l', rfl⟩ := append_of_mem hr
  rw [UniqueKey, map_append, map_cons, nodup_middle, nodup_cons, mem_append, not_or] at h
  exact ⟨l, l', rfl, h.1⟩

variable [DecidableEq κ]

/-- The table with `row` in the place of the row that has its key. -/
def put (key : ρ → κ) (rows : List ρ) (row : ρ) : List ρ :=
  rows.map fun r => if key r = key row then row else r

@[simp] theorem map_key_put : (put key rows row).map key = rows.map key := by
  unfold put
  rw [map_map]
  refine map_congr_left fun r _ => ?_
  by_cases h : key r = key row
  · rw [Function.comp_apply, if_pos h, h]
  · rw [Function.comp_apply, if_neg h]

/-- Nothing is overwritten if the key is not there. -/
theorem put_of_notMem (h : key row ∉ rows.map key) : put key rows row = rows := by
  refine (map_congr_left fun r hr => ?_).trans (map_id rows)
  rw [if_neg, id]
  exact fun heq => h (mem_map.mpr ⟨r, hr, heq⟩)

theorem UniqueKey.put (h : UniqueKey key rows) : UniqueKey key (put key rows row) :=
  h.of_keys map_key_put

/-- Overwriting a row leaves those before and after it as they are. -/
theorem UniqueKey.put_split (h : UniqueKey key rows) (hold : old ∈ rows) (hk : key old = key row) :
    ∃ l l', rows = l ++ old :: l' ∧ Keyed.put key rows row = l ++ row :: l' := by
  obtain ⟨l, l', rfl, hl, hl'⟩ := h.split hold
  rw [hk] at hl hl'
  refine ⟨l, l', rfl, ?_⟩
  calc Keyed.put key (l ++ old :: l') row
    _ = Keyed.put key l row ++ row :: Keyed.put key l' row := by
      rw [Keyed.put, map_append, map_cons, if_pos hk]
      rfl
    _ = l ++ row :: l' := by rw [put_of_notMem hl, put_of_notMem hl']

/-- The row of a key is found by it. -/
theorem UniqueKey.find?_of_mem (h : UniqueKey key rows) (hr : r ∈ rows) :
    rows.find? (fun s => decide (key s = key r)) = some r := by
  obtain ⟨s, hs⟩ := Option.isSome_iff_exists.mp
    (find?_isSome (p := fun s => decide (key s = key r)) |>.mpr ⟨r, hr, decide_eq_true rfl⟩)
  have hkey : key s = key r := by simpa using find?_some hs
  rw [hs, h.eq_of_key (mem_of_find?_eq_some hs) hr hkey]

/-- The rows after `put`: the others, and the new row if its key was there. -/
theorem mem_put (hold : old ∈ rows) (hk : key old = key row) :
    r ∈ put key rows row ↔ r = row ∨ r ∈ rows ∧ key r ≠ key row := by
  unfold put
  rw [mem_map]
  constructor
  · rintro ⟨s, hs, rfl⟩
    by_cases h : key s = key row
    · exact .inl (if_pos h)
    · rw [if_neg h]
      exact .inr ⟨hs, h⟩
  · rintro (rfl | ⟨hr, hne⟩)
    · exact ⟨old, hold, if_pos hk⟩
    · exact ⟨r, hr, if_neg hne⟩

theorem find?_put_self (hold : old ∈ rows) (hk : key old = key row) :
    (put key rows row).find? (fun r => decide (key r = key row)) = some row := by
  unfold put
  induction rows with
  | nil => cases hold
  | cons s rows ih =>
    rw [map_cons]
    by_cases hs : key s = key row
    · rw [if_pos hs, find?_cons_of_pos (by simp)]
    · rw [if_neg hs, find?_cons_of_neg (by simpa using hs)]
      exact ih ((mem_cons.mp hold).resolve_left fun h => hs (h ▸ hk))

theorem find?_put_of_ne {k : κ} (h : key row ≠ k) :
    (put key rows row).find? (fun r => decide (key r = k)) =
      rows.find? (fun r => decide (key r = k)) := by
  unfold put
  induction rows with
  | nil => rfl
  | cons s rows ih =>
    rw [map_cons]
    by_cases hs : key s = key row
    · rw [if_pos hs, find?_cons_of_neg (by simpa using h),
        find?_cons_of_neg (by simpa [hs] using h), ih]
    · rw [if_neg hs, find?_cons, find?_cons, ih]

/-- The table with the row of a key overwritten or added. -/
def upsert (key : ρ → κ) (rows : List ρ) (row : ρ) : List ρ :=
  if rows.any fun r => decide (key r = key row) then put key rows row else rows ++ [row]

theorem UniqueKey.upsert (h : UniqueKey key rows) : UniqueKey key (upsert key rows row) := by
  unfold Keyed.upsert
  split
  · exact h.put
  next hnew =>
  apply h.concat
  intro r hr hk
  exact hnew (any_eq_true.mpr ⟨r, hr, by simpa using hk⟩)

/-- The rows after `upsert`: the new row and those of other keys. -/
theorem mem_upsert : r ∈ upsert key rows row ↔ r = row ∨ r ∈ rows ∧ key r ≠ key row := by
  unfold upsert
  split
  next hany =>
    obtain ⟨old, hold, hk⟩ := any_eq_true.mp hany
    exact mem_put hold (by simpa using hk)
  next hnew =>
    have hne : ∀ r ∈ rows, key r ≠ key row := by simpa using hnew
    rw [mem_append, mem_singleton]
    constructor
    · rintro (h | h)
      · exact .inr ⟨h, hne r h⟩
      · exact .inl h
    · rintro (h | h)
      · exact .inr h
      · exact .inl h.1

/-- A lookup after `upsert`. -/
theorem find?_upsert (k : κ) : (upsert key rows row).find? (fun r => decide (key r = k))
      = if key row = k then some row else rows.find? (fun r => decide (key r = k)) := by
  unfold upsert
  split
  next hany =>
    obtain ⟨old, hold, hk⟩ := any_eq_true.mp hany
    split
    next h => rw [← h, find?_put_self hold (by simpa using hk)]
    next h => rw [find?_put_of_ne h]
  next hnew =>
    split
    next h =>
      have hnone : rows.find? (fun r => decide (key r = k)) = none :=
        find?_eq_none.mpr fun r hr hk => hnew (any_eq_true.mpr ⟨r, hr, h ▸ hk⟩)
      simp [hnone, h]
    next h => simp [h]

variable (p : ρ → Bool)

/-- Overwriting a row changes a count by that row alone. -/
theorem countP_put (hu : UniqueKey key rows) (hold : old ∈ rows) (hk : key old = key row) :
    (put key rows row).countP p + (if p old then 1 else 0) =
      rows.countP p + if p row then 1 else 0 := by
  obtain ⟨l, l', rfl, hput⟩ := hu.put_split hold hk
  rw [hput, countP_append, countP_append, countP_cons, countP_cons]
  omega

/-- A count after `upsert`: without the row of that key before, and with the new one. -/
theorem countP_upsert (hu : UniqueKey key rows) : (upsert key rows row).countP p +
        (if (rows.find? fun r => decide (key r = key row)).any p then 1 else 0) =
      rows.countP p + if p row then 1 else 0 := by
  unfold upsert
  split
  next hany =>
    obtain ⟨old, hold, hk⟩ := any_eq_true.mp hany
    have hkey : key old = key row := by simpa using hk
    have hfind := hu.find?_of_mem hold
    rw [hkey] at hfind
    rw [hfind, Option.any_some]
    exact countP_put p hu hold hkey
  next hnew =>
    have hnone : rows.find? (fun r => decide (key r = key row)) = none :=
      find?_eq_none.mpr fun r hr hk => hnew (any_eq_true.mpr ⟨r, hr, hk⟩)
    rw [hnone, countP_append, countP_singleton]
    rfl

/-! ### New rows and deleted ones -/

/-- A lookup after a row with a new key is added. -/
theorem find?_concat (hnew : ∀ r ∈ rows, key r ≠ key row) (k : κ) :
    (rows ++ [row]).find? (fun r => decide (key r = k)) =
      if k = key row then some row else rows.find? (fun r => decide (key r = k)) := by
  rw [find?_append]
  by_cases hk : k = key row
  · subst hk
    rw [find?_eq_none.mpr (by simpa using hnew)]
    simp
  · simp [hk, Ne.symm hk]

/-- A lookup after the row of a key is deleted. -/
theorem find?_filter_ne (k k' : κ) :
    (rows.filter fun r => decide (key r ≠ k')).find? (fun r => decide (key r = k)) =
      if k = k' then none else rows.find? (fun r => decide (key r = k)) := by
  rw [find?_filter]
  split_ifs with hk
  · refine find?_eq_none.mpr fun r _ => ?_
    simp [hk]
  · congr 1
    funext r
    by_cases hr : key r = k <;> simp [hr, hk]

/-- A count after the row of a key is deleted. -/
theorem countP_filter_ne (hu : UniqueKey key rows) (k : κ) :
    (rows.filter fun r => decide (key r ≠ k)).countP p +
        (if (rows.find? fun r => decide (key r = k)).any p then 1 else 0) = rows.countP p := by
  unfold UniqueKey at hu
  induction rows with
  | nil => rfl
  | cons s rows ih =>
    rw [map_cons, nodup_cons] at hu
    by_cases hs : key s = k
    · -- the row itself: the rest of the table has other keys and stays
      have hrest : rows.filter (fun r => decide (key r ≠ k)) = rows := by
        refine filter_eq_self.mpr fun r hr => ?_
        have hne : key r ≠ k := fun e => hu.1 (hs.trans e.symm ▸ mem_map_of_mem hr)
        simpa using hne
      rw [filter_cons_of_neg (by simpa using hs), find?_cons_of_pos (by simpa using hs),
        hrest, countP_cons, Option.any_some]
    · rw [filter_cons_of_pos (by simpa using hs), find?_cons_of_neg (by simpa using hs),
        countP_cons, countP_cons, Nat.add_right_comm, ih hu.2]

/-! ### Column sums -/

variable {M : Type*}

/-- A column sum grows by what the row's own value grows. -/
theorem sum_put_add [AddCommMonoid M] (f : ρ → M) {v : M} (hu : UniqueKey key rows)
    (hold : old ∈ rows) (hk : key old = key row) (hv : f row = f old + v) :
    ((put key rows row).map f).sum = (rows.map f).sum + v := by
  obtain ⟨l, l', rfl, hput⟩ := hu.put_split hold hk
  rw [hput, map_append, map_append, sum_append, sum_append, map_cons,
    map_cons, sum_cons, sum_cons, hv]
  abel

/-- A column sum changes by the difference of the two rows. -/
theorem sum_put [AddCommGroup M] (f : ρ → M) (hu : UniqueKey key rows)
    (hold : old ∈ rows) (hk : key old = key row) :
    ((put key rows row).map f).sum = (rows.map f).sum - f old + f row := by
  rw [sum_put_add f hu hold hk (v := f row - f old) (by abel)]
  abel

/-- A column that is zero off one row sums to its value there. -/
theorem sum_single [AddCommMonoid M] (f : ρ → M) (hu : UniqueKey key rows)
    (hr : r ∈ rows) : (rows.map fun s => if key s = key r then f s else 0).sum = f r := by
  obtain ⟨l, l', rfl, hl, hl'⟩ := hu.split hr
  have hzero : ∀ {l : List ρ}, key r ∉ l.map key →
      (l.map fun s => if key s = key r then f s else 0).sum = 0 := by
    intro l hl
    refine sum_eq_zero fun x hx => ?_
    obtain ⟨s, hs, rfl⟩ := mem_map.mp hx
    exact if_neg fun heq : key s = key r => hl (heq ▸ mem_map_of_mem hs)
  rw [map_append, sum_append, map_cons, sum_cons, hzero hl, hzero hl',
    if_pos rfl, zero_add, add_zero]

end Keyed
