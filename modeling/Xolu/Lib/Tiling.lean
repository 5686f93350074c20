/-
# Tilings of a linear order

A tiling cuts a line into half-open buckets: `trunc t` is the start of the bucket
that holds `t`, and `next` takes a bucket start to the following one.  The points
fixed by `trunc` are the boundaries.  A coarse tiling nests in a fine one when its
boundaries are boundaries of the fine one, and then summing over whole coarse
buckets sums over whole fine buckets.

`windowSum` is the sum of the weights of the points whose image under a key lies in a
half-open window; folding over buckets is taking such a sum with `trunc` as the key.
-/
import Mathlib.Algebra.BigOperators.Group.List.Basic
import Mathlib.Order.Lattice

namespace Tiling

open List
/-- Every boundary of the coarse tiling is one of the fine tiling. -/
def Nests {α : Type*} (fine coarse : α → α) : Prop := ∀ t, fine (coarse t) = coarse t

theorem Nests.trans {α : Type*} {f g k : α → α} (hfg : Nests f g) (hgk : Nests g k) :
    Nests f k := by
  intro t
  rw [← hgk t, hfg (k t)]

section Order

variable {α : Type*} [LinearOrder α]

/-- `trunc` and `next` cut the line into half-open buckets. -/
structure Tiles (trunc next : α → α) : Prop where
  trunc_le : ∀ t, trunc t ≤ t
  mono : Monotone trunc
  idem : ∀ t, trunc (trunc t) = trunc t
  lt_next : ∀ t, t < next (trunc t)
  trunc_next : ∀ t, trunc (next (trunc t)) = next (trunc t)

variable {trunc next : α → α} {b t : α}

/-- A boundary is at or before the bucket of `t` iff it is at or before `t`. -/
theorem Tiles.le_trunc_iff (h : Tiles trunc next) (hb : trunc b = b) : b ≤ trunc t ↔ b ≤ t := by
  constructor
  · exact fun hle => hle.trans (h.trunc_le t)
  · intro hle
    rw [← hb]
    exact h.mono hle

theorem Tiles.trunc_lt_iff (h : Tiles trunc next) (hb : trunc b = b) : trunc t < b ↔ t < b := by
  rw [← not_le, ← not_le, h.le_trunc_iff hb]

/-- A coarse bucket is found from the fine one. -/
theorem Nests.trunc_trunc {fine coarse fineNext coarseNext : α → α} (hn : Nests fine coarse)
    (hf : Tiles fine fineNext) (hc : Tiles coarse coarseNext) (t : α) :
    coarse (fine t) = coarse t := by
  apply le_antisymm
  · exact hc.mono (hf.trunc_le t)
  · rw [hc.le_trunc_iff (hc.idem t), hf.le_trunc_iff (hn t)]
    exact hc.trunc_le t

/-- The first boundary at or after `t`. -/
def ceil (trunc next : α → α) (t : α) : α := if trunc t < t then next (trunc t) else trunc t

theorem Tiles.le_ceil (h : Tiles trunc next) (t : α) : t ≤ ceil trunc next t := by
  unfold ceil
  split
  · exact (h.lt_next t).le
  · next hlt => exact not_lt.mp hlt

theorem Tiles.trunc_ceil (h : Tiles trunc next) (t : α) :
    trunc (ceil trunc next t) = ceil trunc next t := by
  unfold ceil
  split
  · exact h.trunc_next t
  · exact h.idem t

end Order

section Sums

variable {T α β : Type*} [AddCommMonoid T] [LinearOrder β]

/-- The sum of the weights of the points whose key lies in `[lo, hi)`. -/
def windowSum (es : List (T × α)) (key : α → β) (lo hi : β) : T :=
  ((es.filter fun e => lo ≤ key e.2 ∧ key e.2 < hi).map Prod.fst).sum

variable {es : List (T × α)} {key key' : α → β} {lo mid hi : β}

@[simp] theorem windowSum_nil : windowSum ([] : List (T × α)) key lo hi = 0 := rfl

theorem windowSum_cons (e : T × α) : windowSum (e :: es) key lo hi
      = (if lo ≤ key e.2 ∧ key e.2 < hi then e.1 else 0) + windowSum es key lo hi := by
  unfold windowSum
  by_cases h : lo ≤ key e.2 ∧ key e.2 < hi
  · rw [filter_cons_of_pos (by simpa using h), if_pos h, map_cons, sum_cons]
  · rw [filter_cons_of_neg (by simpa using h), if_neg h, zero_add]

theorem windowSum_append (es fs : List (T × α)) :
    windowSum (es ++ fs) key lo hi = windowSum es key lo hi + windowSum fs key lo hi := by
  simp only [windowSum, filter_append, map_append, sum_append]

theorem windowSum_of_le (h : hi ≤ lo) : windowSum es key lo hi = 0 := by
  unfold windowSum
  rw [filter_eq_nil_iff.mpr]
  · rfl
  · intro e _
    simp only [decide_eq_true_eq, not_and, not_lt]
    exact fun hlo => h.trans hlo

/-- A window is the sum of its two parts. -/
theorem windowSum_split (h₁ : lo ≤ mid) (h₂ : mid ≤ hi) :
    windowSum es key lo mid + windowSum es key mid hi = windowSum es key lo hi := by
  induction es with
  | nil => simp
  | cons e es ih =>
    rw [windowSum_cons, windowSum_cons, windowSum_cons, ← ih, add_add_add_comm]
    by_cases hmid : key e.2 < mid
    · have hhi : key e.2 < hi := hmid.trans_le h₂
      simp only [hmid, hhi, and_true, hmid.not_ge, if_false, add_zero]
    · have hle : mid ≤ key e.2 := not_lt.mp hmid
      simp only [hmid, and_false, if_false, zero_add, hle, h₁.trans hle, true_and]

theorem windowSum_congr
    (h : ∀ e ∈ es, (lo ≤ key e.2 ∧ key e.2 < hi) ↔ (lo ≤ key' e.2 ∧ key' e.2 < hi)) :
    windowSum es key lo hi = windowSum es key' lo hi := by
  unfold windowSum
  rw [filter_congr fun e he => decide_eq_decide.mpr (h e he)]

end Sums

/-! ### Visits -/

/-- **A sequence that never goes back visits every bucket once** if and only if it counts them, from
some point on before which it was in earlier buckets.  Here the buckets are given by their
numbers. -/
theorem visits_once_iff {f : ℕ → ℤ} (hf : ∀ ⦃k k'⦄, k ≤ k' → f k ≤ f k') :
    (∀ n : ℕ, ∃! k, f k = n) ↔ ∃ m, (∀ k < m, f k < 0) ∧ ∀ n : ℕ, f (m + n) = n := by
  constructor
  · intro honce
    obtain ⟨m, hm, -⟩ := honce 0
    refine ⟨m, fun k hk => ?_, fun n => ?_⟩
    · have hle : f k ≤ f m := hf hk.le
      have hne : f k ≠ (0 : ℕ) := fun heq => hk.ne ((honce 0).unique heq hm)
      omega
    · induction n with
      | zero => exact hm
      | succ n ih =>
        -- the next visit is not to the same bucket, and it cannot be beyond the next one
        obtain ⟨k, hk, -⟩ := honce (n + 1)
        have hlow : f (m + n) ≤ f (m + (n + 1)) := hf (by omega)
        have hne : f (m + (n + 1)) ≠ n := fun heq => by
          have := (honce n).unique heq ih
          omega
        have hlater : m + n < k := by
          by_contra hle
          have := hf (not_lt.mp hle)
          omega
        have hhigh : f (m + (n + 1)) ≤ f k := hf (by omega)
        omega
  · rintro ⟨m, hearly, hcount⟩ n
    refine ⟨m + n, hcount n, fun k hk => ?_⟩
    by_cases hkm : k < m
    · have := hearly k hkm
      omega
    · obtain ⟨i, rfl⟩ := Nat.exists_eq_add_of_le (not_lt.mp hkm)
      have := hcount i
      omega

end Tiling
