/-
# Counters with ceilings

A table of counters, one for each key, with an optional ceiling each.  `enter` counts up if
the ceiling leaves room, `leave` counts down if there is something to count down, and both
give nothing if no row is changed: they are the guarded updates `count + 1 <= ceiling` and
`count > 0`, whose verdict is the number of rows they match.  `enterAll` and `leaveAll` go
through a list of keys and stop at the first that is refused.

The lemmas say what every counter is afterwards.
-/
import Xolu.Lib.Keyed

namespace Tally

open List Keyed

/-- A counter and its ceiling. -/
structure Counter (κ : Type*) where
  key : κ
  ceiling : Option Int
  count : Nat
deriving DecidableEq, Repr

variable {κ : Type*} [DecidableEq κ]

/-- The ceiling leaves room for one more. -/
def Counter.HasRoom (c : Counter κ) : Prop := ∀ m ∈ c.ceiling, (c.count + 1 : Int) ≤ m
deriving Decidable

section

variable (rows : List (Counter κ))

/-- The counter of a key. -/
def find (k : κ) : Option (Counter κ) := rows.find? fun c => decide (c.key = k)

/-- The key has a counter with room. -/
def Room (k : κ) : Prop := ∃ c ∈ find rows k, c.HasRoom
deriving Decidable

/-- What a key counts; a key without a counter counts nothing. -/
def countOf (k : κ) : Nat := (find rows k).elim 0 Counter.count

/-- The counter of a key changed, if it passes the guard. -/
def adjust (p : Counter κ → Prop) [DecidablePred p] (f : Nat → Nat) (k : κ) :
    Option (List (Counter κ)) :=
  match find rows k with
  | none => none
  | some c => if p c then some (put Counter.key rows { c with count := f c.count }) else none

/-- One more, if there is room. -/
def enter (k : κ) : Option (List (Counter κ)) := adjust rows Counter.HasRoom (· + 1) k

/-- One less, if there is one. -/
def leave (k : κ) : Option (List (Counter κ)) := adjust rows (0 < ·.count) (· - 1) k

end

/-- The keys entered one after the other, up to the first without room. -/
def enterAll : List κ → List (Counter κ) → Except κ Unit × List (Counter κ)
  | [], rows => (.ok (), rows)
  | k :: ks, rows =>
    match enter rows k with
    | none => (.error k, rows)
    | some rows => enterAll ks rows

/-- The keys left one after the other, up to the first that counts nothing. -/
def leaveAll : List κ → List (Counter κ) → Except κ Unit × List (Counter κ)
  | [], rows => (.ok (), rows)
  | k :: ks, rows =>
    match leave rows k with
    | none => (.error k, rows)
    | some rows => leaveAll ks rows

/-- The ceiling of a key set. -/
def setCeiling (rows : List (Counter κ)) (k : κ) (ceiling : Option Int) : List (Counter κ) :=
  rows.map fun c => if c.key = k then { c with ceiling := ceiling } else c

variable {rows rows' : List (Counter κ)} {k j : κ} {ks : List κ} {c : Counter κ}

theorem mem_of_find (h : find rows k = some c) : c ∈ rows ∧ c.key = k :=
  ⟨mem_of_find?_eq_some h, by simpa using find?_some h⟩

theorem find_isSome_iff : (find rows k).isSome ↔ k ∈ rows.map Counter.key := by
  unfold find
  rw [find?_isSome, mem_map]
  simp only [decide_eq_true_eq]

theorem countOf_of_find (h : find rows k = some c) : countOf rows k = c.count := by
  rw [countOf, h, Option.elim_some]

theorem countOf_of_find_eq_none (h : find rows k = none) : countOf rows k = 0 := by
  rw [countOf, h, Option.elim_none]

theorem countOf_of_mem (h : UniqueKey Counter.key rows) (hc : c ∈ rows) :
    countOf rows c.key = c.count :=
  countOf_of_find (h.find?_of_mem hc)

/-- A key of the table has a counter, with its count. -/
theorem exists_find (h : k ∈ rows.map Counter.key) :
    ∃ c, find rows k = some c ∧ c.count = countOf rows k := by
  obtain ⟨c, hc⟩ := Option.isSome_iff_exists.mp (find_isSome_iff.mpr h)
  exact ⟨c, hc, (countOf_of_find hc).symm⟩

/-- What is counted is in a counter. -/
theorem exists_of_countOf_pos (h : 0 < countOf rows k) :
    ∃ c ∈ rows, c.key = k ∧ c.count = countOf rows k := by
  rcases hc : find rows k with - | c
  · rw [countOf_of_find_eq_none hc] at h
    cases h
  · obtain ⟨hmem, hkey⟩ := mem_of_find hc
    exact ⟨c, hmem, hkey, (countOf_of_find hc).symm⟩

/-! ### One key -/

/-- The counters after one of them has been overwritten. -/
theorem find_put (h : find rows k = some c) (n : Nat) :
    find (put Counter.key rows { c with count := n }) j =
      (find rows j).map fun r => if j = k then { r with count := n } else r := by
  obtain ⟨hmem, hkey⟩ := mem_of_find h
  subst hkey
  by_cases hj : j = c.key
  · subst hj
    rw [h, Option.map_some, if_pos rfl]
    exact @find?_put_self _ _ Counter.key _ { c with count := n } _ _ hmem rfl
  · simp only [if_neg hj, Option.map_id']
    exact find?_put_of_ne (Ne.symm hj)

section

variable {p : Counter κ → Prop} [DecidablePred p] {f : Nat → Nat}

theorem find_adjust (h : adjust rows p f k = some rows') (j : κ) :
    find rows' j =
      (find rows j).map fun r => if j = k then { r with count := f r.count } else r := by
  unfold adjust at h
  split at h
  · cases h
  rename_i c hc
  split_ifs at h
  cases h
  rw [find_put hc]
  by_cases hj : j = k
  · rw [hj, hc]
    simp
  · simp [hj]

theorem keys_adjust (h : adjust rows p f k = some rows') :
    rows'.map Counter.key = rows.map Counter.key := by
  unfold adjust at h
  split at h
  · cases h
  · split_ifs at h
    cases h
    exact map_key_put

theorem adjust_isSome_iff : (adjust rows p f k).isSome ↔ ∃ c ∈ find rows k, p c := by
  unfold adjust
  rcases find rows k with - | c
  · simp
  · by_cases hc : p c <;> simp [hc]

end

/-- A key can be entered if there is room for it. -/
theorem enter_isSome_iff : (enter rows k).isSome ↔ Room rows k := adjust_isSome_iff

theorem exists_of_enter (h : enter rows k = some rows') : ∃ c, find rows k = some c ∧ c.HasRoom :=
  enter_isSome_iff.mp (Option.isSome_of_eq_some h)

theorem room_of_find {rows₁ rows₂ : List (Counter κ)} (h : find rows₁ k = find rows₂ k) :
    Room rows₁ k ↔ Room rows₂ k := by
  unfold Room
  rw [h]

theorem countOf_enter (h : enter rows k = some rows') (j : κ) :
    countOf rows' j = countOf rows j + if j = k then 1 else 0 := by
  unfold countOf
  rw [find_adjust h]
  rcases hj : find rows j with - | c
  · obtain ⟨c, hc, -⟩ := exists_of_enter h
    have hne : j ≠ k := fun e => by simp [← e, hj] at hc
    simp [hne]
  · by_cases hk : j = k <;> simp [hk]

theorem leave_isSome_iff : (leave rows k).isSome ↔ 0 < countOf rows k := by
  refine adjust_isSome_iff.trans ?_
  unfold countOf
  rcases find rows k with - | c <;> simp

theorem countOf_leave (h : leave rows k = some rows') (j : κ) :
    countOf rows' j + (if j = k then 1 else 0) = countOf rows j := by
  have hpos : 0 < countOf rows k := leave_isSome_iff.mp (Option.isSome_of_eq_some h)
  unfold countOf at *
  rw [find_adjust h]
  by_cases hj : j = k
  · subst hj
    rcases hc : find rows j with - | c
    · rw [hc] at hpos
      cases hpos
    · rw [hc] at hpos
      simp only [Option.elim_some] at hpos
      simp only [Option.map_some, Option.elim_some, if_true]
      omega
  · simp [hj]

/-! ### Several keys -/

theorem keys_enterAll (ks : List κ) (rows : List (Counter κ)) :
    (enterAll ks rows).2.map Counter.key = rows.map Counter.key := by
  induction ks generalizing rows with
  | nil => rfl
  | cons k ks ih =>
    unfold enterAll
    split
    · rfl
    · rw [ih, keys_adjust ‹_›]

theorem keys_leaveAll (ks : List κ) (rows : List (Counter κ)) :
    (leaveAll ks rows).2.map Counter.key = rows.map Counter.key := by
  induction ks generalizing rows with
  | nil => rfl
  | cons k ks ih =>
    unfold leaveAll
    split
    · rfl
    · rw [ih, keys_adjust ‹_›]

theorem count_cons_eq : (k :: ks).count j = ks.count j + if j = k then 1 else 0 := by
  rw [count_cons]
  refine congrArg (ks.count j + ·) (if_congr ?_ rfl rfl)
  rw [beq_iff_eq, eq_comm]

/-- If all keys are entered, each counter grows by how often its key is in the list. -/
theorem countOf_enterAll (h : (enterAll ks rows).1 = .ok ()) (j : κ) :
    countOf (enterAll ks rows).2 j = countOf rows j + ks.count j := by
  induction ks generalizing rows with
  | nil => rfl
  | cons k ks ih =>
    unfold enterAll at h ⊢
    split at h
    · cases h
    · rename_i rows' hk
      rw [ih h, countOf_enter hk, count_cons_eq, Nat.add_assoc, Nat.add_comm (ks.count j)]

/-- If all keys are left, each counter shrinks by how often its key is in the list. -/
theorem countOf_leaveAll (h : (leaveAll ks rows).1 = .ok ()) (j : κ) :
    countOf (leaveAll ks rows).2 j + ks.count j = countOf rows j := by
  induction ks generalizing rows with
  | nil => rfl
  | cons k ks ih =>
    unfold leaveAll at h ⊢
    split at h
    · cases h
    · rename_i rows' hk
      rw [← countOf_leave hk, count_cons_eq, ← Nat.add_assoc]
      exact congrArg (· + if j = k then 1 else 0) (ih h)

/-- The counters after some keys have been left and others entered. -/
theorem countOf_enterAll_leaveAll {ks' : List κ} (hleave : (leaveAll ks' rows).1 = .ok ())
    (henter : (enterAll ks (leaveAll ks' rows).2).1 = .ok ()) (j : κ) :
    countOf (enterAll ks (leaveAll ks' rows).2).2 j + ks'.count j =
      countOf rows j + ks.count j := by
  rw [countOf_enterAll henter, ← countOf_leaveAll hleave]
  exact Nat.add_right_comm ..

/-- Distinct keys that count something can all be left. -/
theorem leaveAll_ok (hnd : ks.Nodup) (h : ∀ k ∈ ks, 0 < countOf rows k) :
    (leaveAll ks rows).1 = .ok () := by
  induction ks generalizing rows with
  | nil => rfl
  | cons k ks ih =>
    rw [forall_mem_cons] at h
    rw [nodup_cons] at hnd
    obtain ⟨rows', hk⟩ := Option.isSome_iff_exists.mp (leave_isSome_iff.mpr h.1)
    unfold leaveAll
    simp only [hk]
    refine ih hnd.2 fun j hj => ?_
    have hne : j ≠ k := fun e => hnd.1 (e ▸ hj)
    have hcount := countOf_leave hk j
    rw [if_neg hne, Nat.add_zero] at hcount
    rw [hcount]
    exact h.2 j hj

/-- Distinct keys can all be entered if there is room for each. -/
theorem enterAll_ok_iff (hnd : ks.Nodup) :
    (enterAll ks rows).1 = .ok () ↔ ∀ k ∈ ks, Room rows k := by
  induction ks generalizing rows with
  | nil => exact iff_of_true rfl fun _ h => nomatch h
  | cons k ks ih =>
    rw [nodup_cons] at hnd
    rw [forall_mem_cons, ← enter_isSome_iff]
    unfold enterAll
    rcases hk : enter rows k with - | rows'
    · exact iff_of_false (fun h => nomatch h) fun h => nomatch h.1
    · rw [ih hnd.2, Option.isSome_some, and_iff_right rfl]
      refine forall₂_congr fun j hj => room_of_find ?_
      have hne : j ≠ k := fun e => hnd.1 (e ▸ hj)
      rw [find_adjust hk]
      simp [hne]

/-- The counters of other keys stay. -/
theorem find_leaveAll_of_notMem (h : j ∉ ks) : find (leaveAll ks rows).2 j = find rows j := by
  induction ks generalizing rows with
  | nil => rfl
  | cons k ks ih =>
    rw [mem_cons, not_or] at h
    unfold leaveAll
    rcases hk : leave rows k with - | rows'
    · rfl
    · rw [ih h.2, find_adjust hk]
      simp [h.1]

/-! ### New counters and ceilings -/

@[simp] theorem keys_setCeiling (k : κ) (ceiling : Option Int) :
    (setCeiling rows k ceiling).map Counter.key = rows.map Counter.key := by
  unfold setCeiling
  rw [map_map]
  refine map_congr_left fun c _ => ?_
  rw [Function.comp_apply]
  split <;> rfl

@[simp] theorem countOf_setCeiling (k : κ) (ceiling : Option Int) (j : κ) :
    countOf (setCeiling rows k ceiling) j = countOf rows j := by
  unfold countOf find setCeiling
  induction rows with
  | nil => rfl
  | cons c rows ih =>
    rw [map_cons]
    by_cases hc : c.key = j
    · rw [find?_cons_of_pos (by split <;> simpa using hc),
        find?_cons_of_pos (by simpa using hc), Option.elim_some, Option.elim_some]
      split <;> rfl
    · rw [find?_cons_of_neg (by split <;> simpa using hc),
        find?_cons_of_neg (by simpa using hc), ih]

/-- A new counter starts at nothing. -/
theorem countOf_new (k : κ) (ceiling : Option Int) (j : κ) :
    countOf (rows ++ [⟨k, ceiling, 0⟩]) j = countOf rows j := by
  unfold countOf find
  rw [find?_append]
  generalize rows.find? (fun c => decide (c.key = j)) = found
  cases found with
  | none => by_cases hk : k = j <;> simp [hk]
  | some c => rfl

end Tally
