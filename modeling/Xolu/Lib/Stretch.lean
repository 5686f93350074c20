/-
# Maximal stretches

A predicate on the cells of a line is looked at between two bounds.  A maximal stretch is an
interval of cells that all satisfy it and that cannot be made longer on either side within
the bounds.  `scan` finds them in one pass: it remembers where the open stretch began and
closes it at the first cell that does not satisfy the predicate.

`stretches` lists what the scan finds; `mem_stretches` says that these are the maximal ones
and `pairwise_stretches` that they come in order.
-/
import Mathlib.Data.List.Basic
import Mathlib.Algebra.Order.Ring.Int

namespace Stretch

open List
/-- The cells `[a, b)` are a maximal stretch of `P` between `lo` and `hi`. -/
structure IsMaximal (P : Int → Prop) (lo hi a b : Int) : Prop where
  lo_le : lo ≤ a
  lt : a < b
  le_hi : b ≤ hi
  all : ∀ i, a ≤ i → i < b → P i
  left : a = lo ∨ ¬ P (a - 1)
  right : b = hi ∨ ¬ P b

variable {P : Int → Prop} {lo hi a b a' b' i : Int} {x y : Int}

/-- Cells that satisfy the predicate can be extended to the left as far as it holds. -/
theorem exists_left (hx : lo ≤ x) (hall : ∀ i, x ≤ i → i < y → P i) :
    ∃ a, lo ≤ a ∧ a ≤ x ∧ (∀ i, a ≤ i → i < y → P i) ∧ (a = lo ∨ ¬ P (a - 1)) := by
  induction hm : (x - lo).toNat generalizing x with
  | zero => exact ⟨x, hx, le_rfl, hall, .inl (by omega)⟩
  | succ m ih =>
    by_cases hprev : P (x - 1)
    · obtain ⟨a, hla, hax, h⟩ := ih (x := x - 1) (by omega) (fun i h1 h2 => by
        rcases eq_or_lt_of_le h1 with rfl | h1
        · exact hprev
        · exact hall i (by omega) h2) (by omega)
      exact ⟨a, hla, by omega, h⟩
    · exact ⟨x, hx, le_rfl, hall, .inr hprev⟩

/-- And to the right. -/
theorem exists_right (hy : y ≤ hi) (hall : ∀ i, x ≤ i → i < y → P i) :
    ∃ b, y ≤ b ∧ b ≤ hi ∧ (∀ i, x ≤ i → i < b → P i) ∧ (b = hi ∨ ¬ P b) := by
  induction hm : (hi - y).toNat generalizing y with
  | zero => exact ⟨y, le_rfl, hy, hall, .inl (by omega)⟩
  | succ m ih =>
    by_cases hnext : P y
    · obtain ⟨b, hyb, h⟩ := ih (y := y + 1) (by omega) (fun i h1 h2 => by
        rcases eq_or_lt_of_le (Int.lt_add_one_iff.mp h2) with rfl | h2
        · exact hnext
        · exact hall i h1 h2) (by omega)
      exact ⟨b, by omega, h⟩
    · exact ⟨y, le_rfl, hy, hall, .inr hnext⟩

/-- Every interval of cells that satisfy the predicate lies within a maximal stretch. -/
theorem exists_isMaximal (hx : lo ≤ x) (hxy : x < y) (hy : y ≤ hi)
    (hall : ∀ i, x ≤ i → i < y → P i) : ∃ a b, IsMaximal P lo hi a b ∧ a ≤ x ∧ y ≤ b := by
  obtain ⟨a, hla, hax, halla, hleft⟩ := exists_left hx hall
  obtain ⟨b, hyb, hbh, hallb, hright⟩ := exists_right hy halla
  exact ⟨a, b, ⟨hla, by omega, hbh, hallb, hleft, hright⟩, hax, hyb⟩

/-- Only the cells between the bounds matter. -/
theorem isMaximal_congr {Q : Int → Prop} (h : ∀ i, lo ≤ i → i < hi → (P i ↔ Q i)) :
    IsMaximal P lo hi a b ↔ IsMaximal Q lo hi a b := by
  have key : ∀ {P Q : Int → Prop}, (∀ i, lo ≤ i → i < hi → (P i ↔ Q i)) →
      IsMaximal P lo hi a b → IsMaximal Q lo hi a b := by
    rintro P Q h ⟨h1, h2, h3, h4, h5, h6⟩
    refine ⟨h1, h2, h3, fun i hi1 hi2 => (h i (by omega) (by omega)).mp (h4 i hi1 hi2), ?_, ?_⟩
    · by_cases ha : a = lo
      · exact .inl ha
      · exact .inr fun hQ => h5.resolve_left ha ((h (a - 1) (by omega) (by omega)).mpr hQ)
    · by_cases hb : b = hi
      · exact .inl hb
      · exact .inr fun hQ => h6.resolve_left hb ((h b (by omega) (by omega)).mpr hQ)
  exact ⟨key h, key fun i h1 h2 => (h i h1 h2).symm⟩

/-- Maximal stretches that end together begin together. -/
theorem IsMaximal.start_eq (h : IsMaximal P lo hi a b) (h' : IsMaximal P lo hi a' b) : a = a' := by
  -- the one that began earlier would have gone on to the left of the other
  have key : ∀ {x y}, IsMaximal P lo hi x b → IsMaximal P lo hi y b → ¬ x < y := by
    intro x y hx hy hlt
    rcases hy.left with rfl | hnot
    · exact absurd hx.lo_le (not_le.mpr hlt)
    · have := hy.lt
      exact hnot (hx.all (y - 1) (by omega) (by omega))
  exact le_antisymm (not_lt.mp (key h' h)) (not_lt.mp (key h h'))

/-- A stretch that ends before another one ends lies before it. -/
theorem IsMaximal.lt_of_lt (h : IsMaximal P lo hi a b) (h' : IsMaximal P lo hi a' b')
    (hlt : b < b') : b < a' := by
  by_contra hge
  have hP := h'.all b (by omega) hlt
  have := h'.le_hi
  rcases h.right with rfl | hnot
  · omega
  · exact hnot hP

/-- A stretch of the cells so far that has ended stays one when a cell is added. -/
theorem isMaximal_succ_iff (hb : b < hi) : IsMaximal P lo (hi + 1) a b ↔ IsMaximal P lo hi a b := by
  constructor
  · rintro ⟨h1, h2, h3, h4, h5, h6⟩
    exact ⟨h1, h2, by omega, h4, h5, .inr (h6.resolve_left (by omega))⟩
  · rintro ⟨h1, h2, h3, h4, h5, h6⟩
    exact ⟨h1, h2, by omega, h4, h5, .inr (h6.resolve_left (by omega))⟩

/-- A cell that satisfies the predicate goes on with the open stretch. -/
theorem IsMaximal.extend (h : IsMaximal P lo hi a hi) (hP : P hi) :
    IsMaximal P lo (hi + 1) a (hi + 1) where
  lo_le := h.lo_le
  lt := by have := h.lt; omega
  le_hi := le_rfl
  all := by
    intro i hai hi'
    rcases eq_or_lt_of_le (Int.lt_add_one_iff.mp hi') with rfl | hlt
    · exact hP
    · exact h.all i hai hlt
  left := h.left
  right := .inl rfl

/-- Without an open stretch it begins one. -/
theorem isMaximal_single (hlo : lo ≤ hi) (hP : P hi) (hopen : ∀ a, ¬ IsMaximal P lo hi a hi) :
    IsMaximal P lo (hi + 1) hi (hi + 1) where
  lo_le := hlo
  lt := by omega
  le_hi := le_rfl
  all := by
    intro i h1 h2
    obtain rfl : i = hi := by omega
    exact hP
  left := by
    by_contra hcon
    push Not at hcon
    -- the cell before would belong to an open stretch
    obtain ⟨a, hla, hax, hall, hleft⟩ := exists_left (y := hi) (by omega : lo ≤ hi - 1)
      fun i h1 h2 => by
        obtain rfl : i = hi - 1 := by omega
        exact hcon.2
    exact hopen a ⟨hla, by omega, le_rfl, hall, hleft, .inl rfl⟩
  right := .inl rfl

/-! ### The scan -/

/-- The state of the scan: the begin of the open stretch, and those that have ended. -/
structure Scan where
  start : Option Int
  done : List (Int × Int)

namespace Scan

/-- The open stretch, if there is one, ends before this cell. -/
def close (s : Scan) (i : Int) : Scan :=
  match s.start with
  | none => s
  | some a => ⟨none, s.done ++ [(a, i)]⟩

/-- One cell. -/
def step (P : Int → Prop) [DecidablePred P] (s : Scan) (i : Int) : Scan :=
  if P i then { s with start := some (s.start.getD i) } else s.close i

/-- What the scan knows after the cells from `lo` up to `hi`. -/
structure Inv (P : Int → Prop) (lo hi : Int) (s : Scan) : Prop where
  mem_done : ∀ a b, (a, b) ∈ s.done ↔ IsMaximal P lo hi a b ∧ b < hi
  start_eq : ∀ a, s.start = some a ↔ IsMaximal P lo hi a hi
  pairwise : s.done.Pairwise fun x y => x.2 < y.1

variable {s : Scan}

theorem start_close (s : Scan) (i : Int) : (s.close i).start = none := by
  unfold Scan.close
  split
  · assumption
  · rfl

theorem Inv.init : Inv P lo lo ⟨none, []⟩ where
  mem_done := by
    intro a b
    refine iff_of_false (fun h => nomatch h) fun h => ?_
    have := h.1.lo_le
    have := h.1.lt
    omega
  start_eq := by
    intro a
    refine iff_of_false (fun h => nomatch h) fun h => ?_
    have := h.lo_le
    have := h.lt
    omega
  pairwise := List.Pairwise.nil

section

variable (h : Inv P lo hi s)

include h

theorem Inv.none_iff : s.start = none ↔ ∀ a, ¬ IsMaximal P lo hi a hi := by
  simp only [← h.start_eq, Option.eq_none_iff_forall_ne_some, ne_eq]

/-- The stretches that have ended and the open one, if it is closed here. -/
theorem Inv.mem_close : (a, b) ∈ (s.close hi).done ↔ IsMaximal P lo hi a b := by
  have hdone : IsMaximal P lo hi a b ↔ (a, b) ∈ s.done ∨ IsMaximal P lo hi a b ∧ b = hi := by
    rw [h.mem_done]
    constructor
    · intro hm
      rcases lt_or_eq_of_le hm.le_hi with hlt | heq
      · exact .inl ⟨hm, hlt⟩
      · exact .inr ⟨hm, heq⟩
    · rintro (hm | hm)
      · exact hm.1
      · exact hm.1
  rw [hdone, close]
  split
  · rename_i hnone
    refine (or_iff_left ?_).symm
    rintro ⟨hm, rfl⟩
    exact h.none_iff.mp hnone a hm
  · rename_i a' hsome
    have hm' := (h.start_eq a').mp hsome
    rw [mem_append, mem_singleton, Prod.mk.injEq]
    refine or_congr_right ?_
    constructor
    · rintro ⟨rfl, rfl⟩
      exact ⟨hm', rfl⟩
    · rintro ⟨hm, rfl⟩
      exact ⟨hm.start_eq hm', rfl⟩

theorem Inv.pairwise_close : (s.close hi).done.Pairwise fun x y => x.2 < y.1 := by
  rw [close]
  split
  · exact h.pairwise
  · rename_i a' hsome
    refine pairwise_append.mpr ⟨h.pairwise, pairwise_singleton _ _, ?_⟩
    rintro ⟨a, b⟩ hab y hy
    rw [mem_singleton.mp hy]
    obtain ⟨hm, hlt⟩ := (h.mem_done a b).mp hab
    exact hm.lt_of_lt ((h.start_eq a').mp hsome) hlt

/-- A cell that satisfies the predicate extends the open stretch, or begins one. -/
theorem Inv.extend (hlo : lo ≤ hi) (hP : P hi) :
    Inv P lo (hi + 1) { s with start := some (s.start.getD hi) } where
  mem_done a b := by
    rw [h.mem_done]
    constructor
    · rintro ⟨hm, hlt⟩
      exact ⟨(isMaximal_succ_iff hlt).mpr hm, by omega⟩
    · rintro ⟨hm, hlt⟩
      -- it cannot end at the new cell, which satisfies the predicate
      have hne : b ≠ hi := by
        rintro rfl
        rcases hm.right with hb | hb
        · omega
        · exact hb hP
      have hlt' : b < hi := by omega
      exact ⟨(isMaximal_succ_iff hlt').mp hm, hlt'⟩
  start_eq a := by
    have hmax : IsMaximal P lo (hi + 1) (s.start.getD hi) (hi + 1) := by
      rcases hs : s.start with - | a'
      · exact isMaximal_single hlo hP (h.none_iff.mp hs)
      · exact ((h.start_eq a').mp hs).extend hP
    rw [Option.some_inj]
    constructor
    · rintro rfl
      exact hmax
    · exact fun hm => hmax.start_eq hm
  pairwise := h.pairwise

/-- A cell that does not satisfy it ends the open stretch. -/
theorem Inv.close (hP : ¬ P hi) : Inv P lo (hi + 1) (s.close hi) where
  mem_done a b := by
    rw [h.mem_close]
    constructor
    · intro hm
      have hle := hm.le_hi
      refine ⟨⟨hm.lo_le, hm.lt, by omega, hm.all, hm.left, .inr ?_⟩, by omega⟩
      rcases hm.right with rfl | hb
      · exact hP
      · exact hb
    · rintro ⟨hm, hlt⟩
      refine ⟨hm.lo_le, hm.lt, by omega, hm.all, hm.left, ?_⟩
      rcases hm.right with hb | hb
      · omega
      · exact .inr hb
  start_eq a := by
    rw [start_close]
    refine iff_of_false (Option.some_ne_none a).symm fun hm => ?_
    have := hm.lt
    exact hP (hm.all hi (by omega) (by omega))
  pairwise := h.pairwise_close

/-- **One cell keeps what the scan knows.** -/
theorem Inv.step [DecidablePred P] (hlo : lo ≤ hi) : Inv P lo (hi + 1) (s.step P hi) := by
  unfold Scan.step
  split
  · exact h.extend hlo ‹_›
  · exact h.close ‹_›

end

end Scan

/-- The cells from `lo` up to `hi`. -/
def cells (lo hi : Int) : List Int := (List.range (hi - lo).toNat).map fun (n : Nat) => lo + n

theorem mem_cells : i ∈ cells lo hi ↔ lo ≤ i ∧ i < hi := by
  rw [cells, mem_map]
  constructor
  · rintro ⟨n, hn, rfl⟩
    rw [mem_range] at hn
    omega
  · intro h
    exact ⟨(i - lo).toNat, mem_range.mpr (by omega), by omega⟩

theorem cells_of_le (h : hi ≤ lo) : cells lo hi = [] := by
  rw [cells, Int.toNat_eq_zero.mpr (by omega)]
  rfl

/-- Two intervals of cells that meet. -/
theorem cells_append {mid : Int} (h : lo ≤ mid) (h' : mid ≤ hi) :
    cells lo mid ++ cells mid hi = cells lo hi := by
  have hlen : (hi - lo).toNat = (mid - lo).toNat + (hi - mid).toNat := by omega
  rw [cells, cells, cells, hlen, range_add, map_append, map_map]
  refine congrArg (_ ++ ·) (map_congr_left fun n _ => ?_)
  simp only [Function.comp_apply, Nat.cast_add]
  omega

theorem cells_succ (h : lo ≤ hi) : cells lo (hi + 1) = cells lo hi ++ [hi] := by
  rw [← cells_append h (by omega)]
  refine congrArg (cells lo hi ++ ·) ?_
  rw [cells, show (hi + 1 - hi).toNat = 1 by omega]
  simp

theorem cells_add (c lo hi : Int) : cells (c + lo) (c + hi) = (cells lo hi).map (c + ·) := by
  rw [cells, cells, map_map, Int.add_sub_add_left]
  exact map_congr_left fun n _ => Int.add_assoc c lo n

/-- The first cell and the others. -/
theorem cells_cons (h : lo < hi) : cells lo hi = lo :: cells (lo + 1) hi := by
  rw [← cells_append (by omega : lo ≤ lo + 1) (by omega), cells_succ le_rfl, cells_of_le le_rfl]
  rfl

/-- The scan over the cells from `lo` up to `hi`. -/
def scan (P : Int → Prop) [DecidablePred P] (lo hi : Int) : Scan :=
  (cells lo hi).foldl (Scan.step P) ⟨none, []⟩

theorem inv_scan [DecidablePred P] (h : lo ≤ hi) : (scan P lo hi).Inv P lo hi := by
  induction hi, h using Int.leInduction with
  | base =>
    rw [scan, cells_of_le le_rfl]
    exact Scan.Inv.init
  | succ hi h ih =>
    rw [scan, cells_succ h, foldl_append]
    exact ih.step h

/-- The stretches of the cells from `lo` up to `hi`. -/
def stretches (P : Int → Prop) [DecidablePred P] (lo hi : Int) : List (Int × Int) :=
  ((scan P lo hi).close hi).done

/-- **The scan finds the maximal stretches.** -/
theorem mem_stretches [DecidablePred P] (h : lo ≤ hi) :
    (a, b) ∈ stretches P lo hi ↔ IsMaximal P lo hi a b :=
  (inv_scan h).mem_close

/-- The stretches come in order, with a cell between each and the next. -/
theorem pairwise_stretches [DecidablePred P] (h : lo ≤ hi) :
    (stretches P lo hi).Pairwise fun x y => x.2 < y.1 :=
  (inv_scan h).pairwise_close

end Stretch
