/-
# Sixty-four-bit numbers

Two arithmetics on signed 64-bit integers.

* `wrap` is the wrapping arithmetic of machine code: a sum is taken modulo `2^64`
  and read back as a signed number.
* `Sql` is the arithmetic of a SQL engine with integers and doubles: a sum or
  difference that does not fit an integer is computed on doubles instead, and an
  integer and a double are compared by their exact values.

Doubles only arise from overflowing integer sums, so they are whole numbers and an
`Int` holds them; `toReal` is round-to-nearest, ties-to-even, to 53 significant
bits.  What later proofs need of the rounding is `sub_mono`/`add_mono` (rounded
sums still grow with their left argument) and `sub_low`/`add_high` (a rounded
overflowing sum does not fall back into the integer range).
-/
import Mathlib.Tactic.NormNum
import Mathlib.Tactic.Positivity

namespace Num64

open List Nat
/-! ### The integer range and wrapping sums -/

/-- The range of a signed 64-bit integer. -/
def InRange (x : Int) : Prop := -9223372036854775808 ≤ x ∧ x ≤ 9223372036854775807
deriving Decidable

/-- The signed 64-bit integer congruent to `x` modulo `2^64`. -/
def wrap (x : Int) : Int := (x + 9223372036854775808) % 18446744073709551616 - 9223372036854775808

theorem wrap_inRange (x : Int) : InRange (wrap x) := by
  unfold InRange wrap; omega

variable {x : Int}

theorem wrap_of_inRange (h : InRange x) : wrap x = x := by
  unfold InRange at h; unfold wrap; omega

theorem wrap_add_wrap_left (x y : Int) : wrap (wrap x + y) = wrap (x + y) := by
  unfold wrap; omega

/-! ### Rounding to doubles -/

variable (n : Nat)

/-- The spacing of the doubles around the whole number `n`. -/
def ulp : Nat := 2 ^ (n.log2 - 52)

/-- The double nearest to `n`, the even one of two equally near. -/
def roundNat : Nat :=
  if ulp n < 2 * (n % ulp n) ∨ (2 * (n % ulp n) = ulp n ∧ n / ulp n % 2 = 1) then
    (n / ulp n + 1) * ulp n
  else
    n / ulp n * ulp n

/-- The double nearest to the integer `x`. -/
def toReal (x : Int) : Int :=
  if 0 ≤ x then roundNat x.toNat else -roundNat (-x).toNat

theorem ulp_pos : 0 < ulp n := Nat.two_pow_pos _

theorem ulp_dvd_roundNat : ulp n ∣ roundNat n := by
  unfold roundNat
  split
  · exact Dvd.intro_left _ rfl
  · exact Dvd.intro_left _ rfl

theorem le_roundNat : 2 * n ≤ 2 * roundNat n + ulp n := by
  have hdm : ulp n * (n / ulp n) + n % ulp n = n := div_add_mod n (ulp n)
  have hr := mod_lt n (ulp_pos n)
  unfold roundNat
  split
  · rw [add_mul, one_mul, mul_comm (n / ulp n)]; omega
  · rw [mul_comm (n / ulp n)]; omega

/-- Rounding stays within the binade: it can reach the next power of two, no more. -/
theorem roundNat_le_pow : roundNat n ≤ 2 ^ (n.log2 + 1) := by
  have hlt : n < 2 ^ (n.log2 + 1) := lt_log2_self
  have hdvd : ulp n ∣ 2 ^ (n.log2 + 1) := pow_dvd_pow 2 (by omega)
  obtain ⟨c, hc⟩ := hdvd
  -- both are multiples of the spacing, so compare the quotients
  have hq : n / ulp n < c := by
    rw [div_lt_iff_lt_mul (ulp_pos n), mul_comm, ← hc]
    exact hlt
  rw [hc, mul_comm (ulp n)]
  unfold roundNat
  split
  · exact mul_le_mul_right _ hq
  · exact mul_le_mul_right _ hq.le

variable {n : Nat}

theorem pow_le_roundNat (hn : n ≠ 0) : 2 ^ n.log2 ≤ roundNat n := by
  have hle : 2 ^ n.log2 ≤ n := log2_self_le hn
  have hdvd : ulp n ∣ 2 ^ n.log2 := pow_dvd_pow 2 (by omega)
  obtain ⟨c, hc⟩ := hdvd
  have hq : c ≤ n / ulp n := by
    rw [le_div_iff_mul_le (ulp_pos n), mul_comm, ← hc]
    exact hle
  rw [hc, mul_comm (ulp n)]
  unfold roundNat
  split
  · exact mul_le_mul_right _ (by omega)
  · exact mul_le_mul_right _ hq

theorem roundNat_mono {m : Nat} (h : m ≤ n) : roundNat m ≤ roundNat n := by
  rcases Nat.eq_zero_or_pos m with rfl | hm
  · simp [roundNat]
  have hlog : m.log2 ≤ n.log2 := by
    rw [le_log2 (by omega)]
    exact (log2_self_le hm.ne').trans h
  rcases lt_or_eq_of_le hlog with hlt | heq
  · -- different binades: a power of two separates the two rounded values
    calc roundNat m ≤ 2 ^ (m.log2 + 1) := roundNat_le_pow m
      _ ≤ 2 ^ n.log2 := Nat.pow_le_pow_right (by decide) hlt
      _ ≤ roundNat n := pow_le_roundNat (by omega)
  · -- one binade: the quotients are ordered, and on equal quotients the remainders are
    have hu : ulp m = ulp n := by simp only [ulp, heq]
    have hq : m / ulp n ≤ n / ulp n := Nat.div_le_div_right h
    have hm1 : ulp n * (m / ulp n) + m % ulp n = m := div_add_mod m (ulp n)
    have hn1 : ulp n * (n / ulp n) + n % ulp n = n := div_add_mod n (ulp n)
    unfold roundNat
    rw [hu]
    rcases lt_or_eq_of_le hq with hq | hq
    · split
      · split
        · exact mul_le_mul_right _ (by omega)
        · exact mul_le_mul_right _ (by omega)
      · split
        · exact mul_le_mul_right _ (by omega)
        · exact mul_le_mul_right _ (by omega)
    · rw [hq] at hm1 ⊢
      split
      · next hup =>
        rw [if_pos (by omega)]
      · split
        · exact mul_le_mul_right _ (by omega)
        · exact le_rfl

/-- The largest integer double below `2^63` is `2^63 - 1024`, so anything from the
midpoint on rounds up to `2^63`. -/
theorem pow63_le_roundNat (h : 9223372036854775296 ≤ n) : 2 ^ 63 ≤ roundNat n :=
  calc 2 ^ 63 = roundNat 9223372036854775296 := by decide +kernel
    _ ≤ roundNat n := roundNat_mono h

theorem ulp_dvd_512 (h : n < 2 ^ 62) : ulp n ∣ 512 := by
  have hlog : n.log2 ≤ 61 := by
    rcases Nat.eq_zero_or_pos n with rfl | hn
    · simp
    · have := (log2_lt hn.ne').mpr h
      omega
  exact pow_dvd_pow 2 (show n.log2 - 52 ≤ 9 by omega)

theorem pow62_le_roundNat (h : 2 ^ 62 ≤ n) : 2 ^ 62 ≤ roundNat n := by
  have hlog : 62 ≤ n.log2 := (le_log2 (by omega)).mpr h
  exact (Nat.pow_le_pow_right (by decide) hlog).trans (pow_le_roundNat (by omega))

/-- The larger summand of an overflowing sum, rounded, loses at most 512. -/
theorem le_roundNat_large {u : Nat} (hlo : 2 ^ 62 ≤ u) (hhi : u ≤ 2 ^ 63) :
    u ≤ roundNat u + 512 := by
  rcases lt_or_eq_of_le hhi with hlt | rfl
  · have hlog : u.log2 - 52 = 10 := by
      have h1 : 62 ≤ u.log2 := (le_log2 (by omega)).mpr hlo
      have h2 : u.log2 < 63 := (log2_lt (by omega)).mpr hlt
      omega
    have hu : ulp u = 1024 := by rw [ulp, hlog]; rfl
    have := le_roundNat u
    omega
  · decide +kernel

/-- A sum that overflows still overflows after its summands are rounded. -/
theorem roundNat_add_overflow_aux {u w : Nat} (hwu : w ≤ u) (hu : u ≤ 2 ^ 63)
    (h : 2 ^ 63 ≤ u + w) : 2 ^ 63 ≤ roundNat (roundNat u + roundNat w) := by
  have hu62 : 2 ^ 62 ≤ u := by omega
  apply pow63_le_roundNat
  rcases lt_or_ge w (2 ^ 62) with hw | hw
  · -- the rounded sum is a multiple of the smaller summand's spacing, which divides 512
    obtain ⟨d, hd⟩ : ulp w ∣ roundNat u + roundNat w := by
      refine dvd_add ?_ (ulp_dvd_roundNat w)
      refine Dvd.dvd.trans ?_ (ulp_dvd_roundNat u)
      refine (ulp_dvd_512 hw).trans (pow_dvd_pow 2 (show 9 ≤ u.log2 - 52 from ?_))
      have : 62 ≤ u.log2 := (le_log2 (by omega)).mpr hu62
      omega
    obtain ⟨c, hc⟩ : ulp w ∣ 9223372036854775296 := (ulp_dvd_512 hw).trans (by decide)
    have h1 := le_roundNat_large hu62 hu
    have h2 := le_roundNat w
    have hcd : c ≤ d := by
      by_contra hlt
      have : ulp w * (d + 1) ≤ ulp w * c := mul_le_mul_left _ (by omega)
      rw [mul_add] at this
      have := ulp_pos w
      omega
    rw [hc, hd]
    exact mul_le_mul_left _ hcd
  · -- both summands keep half of the bound
    have h1 := pow62_le_roundNat hu62
    have h2 := pow62_le_roundNat hw
    omega

theorem roundNat_add_overflow {u w : Nat} (hu : u ≤ 2 ^ 63) (hw : w ≤ 2 ^ 63)
    (h : 2 ^ 63 ≤ u + w) : 2 ^ 63 ≤ roundNat (roundNat u + roundNat w) := by
  rcases le_total w u with hle | hle
  · exact roundNat_add_overflow_aux hle hu h
  · rw [add_comm (roundNat u)]
    exact roundNat_add_overflow_aux hle hw (by omega)

theorem toReal_of_nonneg (h : 0 ≤ x) : toReal x = roundNat x.toNat := if_pos h

theorem toReal_of_nonpos (h : x ≤ 0) : toReal x = -roundNat (-x).toNat := by
  rcases h.lt_or_eq with h | rfl
  · exact if_neg (by omega)
  · simp [toReal, roundNat]

theorem toReal_neg (x : Int) : toReal (-x) = -toReal x := by
  rcases le_total 0 x with hx | hx
  · rw [toReal_of_nonneg hx, toReal_of_nonpos (Int.neg_nonpos_of_nonneg hx), Int.neg_neg]
  · rw [toReal_of_nonpos hx, toReal_of_nonneg (Int.neg_nonneg_of_nonpos hx), Int.neg_neg]

theorem toReal_mono {y : Int} (h : x ≤ y) : toReal x ≤ toReal y := by
  rcases le_total 0 x with hx | hx
  · rw [toReal_of_nonneg hx, toReal_of_nonneg (hx.trans h)]
    exact_mod_cast roundNat_mono (Int.toNat_le_toNat h)
  rcases le_total 0 y with hy | hy
  · -- zero lies between
    rw [toReal_of_nonpos hx, toReal_of_nonneg hy]
    omega
  · rw [toReal_of_nonpos hx, toReal_of_nonpos hy]
    have := roundNat_mono (show (-y).toNat ≤ (-x).toNat by omega)
    omega

/-! ### SQL numbers -/

/-- A number as the SQL engine holds it: an integer, or a double. -/
inductive Sql where
  | int (i : Int)
  | real (r : Int)
deriving DecidableEq, Repr

namespace Sql

/-- The exact value, by which numbers of both kinds are compared. -/
def val : Sql → Int
  | int i => i
  | real r => r

/-- The operand as the double an inexact operation works on. -/
def asReal : Sql → Int
  | int i => toReal i
  | real r => r

/-- `x + y`: on integers as long as the sum is one. -/
def add : Sql → Sql → Sql
  | int a, int b =>
    if InRange (a + b) then int (a + b) else real (toReal (toReal a + toReal b))
  | x, y => real (toReal (x.asReal + y.asReal))

/-- `x - y`: on integers as long as the difference is one. -/
def sub : Sql → Sql → Sql
  | int a, int b =>
    if InRange (a - b) then int (a - b) else real (toReal (toReal a - toReal b))
  | x, y => real (toReal (x.asReal - y.asReal))

/-- What an INTEGER column keeps: a double that is an integer is stored as one. -/
def column : Sql → Sql
  | int i => int i
  | real r => if -9223372036854775808 < r ∧ r < 9223372036854775807 then int r else real r

@[simp] theorem val_int (i : Int) : (int i).val = i := rfl

@[simp] theorem column_int (i : Int) : (int i).column = int i := rfl

theorem add_int {a b : Int} (h : InRange (a + b)) : add (int a) (int b) = int (a + b) := if_pos h

theorem sub_int {a b : Int} (h : InRange (a - b)) : sub (int a) (int b) = int (a - b) := if_pos h

theorem sub_eq_int {a b v : Int} (h : sub (int a) (int b) = int v) :
    v = a - b ∧ InRange (a - b) := by
  simp only [sub] at h
  split at h
  · next hr => exact ⟨(Sql.int.inj h).symm, hr⟩
  · cases h

theorem add_eq_int {a b v : Int} (h : add (int a) (int b) = int v) :
    v = a + b ∧ InRange (a + b) := by
  simp only [add] at h
  split at h
  · next hr => exact ⟨(Sql.int.inj h).symm, hr⟩
  · cases h

theorem sub_eq_add (a b : Int) : sub (int a) (int b) = add (int a) (int (-b)) := by
  simp only [sub, add, toReal_neg, Int.sub_eq_add_neg]

/-- An operand, or its negation. -/
theorem abs_le_of_inRange {x : Int} (h : InRange x) : |x| ≤ 2 ^ 63 :=
  abs_le.mpr ⟨h.1, h.2.trans (by decide)⟩

section

variable {a a' b : Int} (hb : |b| ≤ 2 ^ 63)
include hb

/-- A sum that rises above the integers is rounded to at least `2^63`. -/
theorem le_add_of_lt (ha : |a| ≤ 2 ^ 63) (h : 9223372036854775807 < a + b) :
    2 ^ 63 ≤ (add (int a) (int b)).val := by
  obtain ⟨-, ha⟩ := abs_le.mp ha
  obtain ⟨-, hb⟩ := abs_le.mp hb
  have hr : ¬ InRange (a + b) := fun hr => absurd hr.2 (by omega)
  have hov := roundNat_add_overflow (u := a.toNat) (w := b.toNat) (by omega) (by omega) (by omega)
  simp only [add, if_neg hr, val]
  rw [toReal_of_nonneg (show 0 ≤ a by omega), toReal_of_nonneg (show 0 ≤ b by omega),
    toReal_of_nonneg (by omega)]
  rw [show ((roundNat a.toNat : Int) + (roundNat b.toNat : Int)).toNat
    = roundNat a.toNat + roundNat b.toNat by omega]
  omega

/-- A sum that falls below the integers is rounded to at most `-2^63`: negate the operands. -/
theorem add_le_of_lt (ha : |a| ≤ 2 ^ 63) (h : a + b < -2 ^ 63) :
    (add (int a) (int b)).val ≤ -2 ^ 63 := by
  have hneg := le_add_of_lt (a := -a) (b := -b) (by rwa [abs_neg]) (by rwa [abs_neg]) (by omega)
  have hr : ¬ InRange (a + b) := fun hr => absurd hr.1 (by omega)
  have hr' : ¬ InRange (-(a + b)) := fun hr => absurd hr.2 (by omega)
  simp only [add, if_neg hr, if_neg hr', val, toReal_neg, ← neg_add] at hneg ⊢
  omega

/-- The rounded sum grows with its left argument, also across the points where it stops being
an integer. -/
theorem val_add_mono (ha : InRange a) (ha' : InRange a') (h : a ≤ a') :
    (add (int a) (int b)).val ≤ (add (int a') (int b)).val := by
  by_cases hr : InRange (a + b)
  · by_cases hr' : InRange (a' + b)
    · rw [add_int hr, add_int hr']
      exact Int.add_le_add_right h b
    · have hov : 9223372036854775807 < a' + b := by
        unfold InRange at hr hr'; omega
      have := le_add_of_lt hb (abs_le_of_inRange ha') hov
      have := hr.2
      rw [add_int hr, val_int]
      omega
  by_cases hr' : InRange (a' + b)
  · have hov : a + b < -9223372036854775808 := by
      unfold InRange at hr hr'; omega
    have := add_le_of_lt hb (abs_le_of_inRange ha) hov
    have := hr'.1
    rw [add_int hr', val_int]
    omega
  · simp only [add, if_neg hr, if_neg hr', val]
    exact toReal_mono (Int.add_le_add_right (toReal_mono h) _)

end

section

variable {a a' b : Int} (ha : InRange a) (ha' : InRange a') (hb : InRange b)
include ha hb

theorem add_high (h : 9223372036854775807 < a + b) : 2 ^ 63 ≤ (add (int a) (int b)).val :=
  le_add_of_lt (abs_le_of_inRange hb) (abs_le_of_inRange ha) h

theorem sub_low (h : a - b < -2 ^ 63) : (sub (int a) (int b)).val ≤ -2 ^ 63 := by
  rw [sub_eq_add]
  exact add_le_of_lt (by rw [abs_neg]; exact abs_le_of_inRange hb) (abs_le_of_inRange ha) h

include ha'

theorem add_mono (h : a ≤ a') : (add (int a) (int b)).val ≤ (add (int a') (int b)).val :=
  val_add_mono (abs_le_of_inRange hb) ha ha' h

theorem sub_mono (h : a ≤ a') : (sub (int a) (int b)).val ≤ (sub (int a') (int b)).val := by
  rw [sub_eq_add, sub_eq_add]
  exact val_add_mono (by rw [abs_neg]; exact abs_le_of_inRange hb) ha ha' h

end

/-- `SUM` over an integer column: an error as soon as a partial sum is no integer. -/
def sum : Int → List Int → Option Int
  | acc, [] => some acc
  | acc, x :: xs => if InRange (acc + x) then sum (acc + x) xs else none

theorem sum_eq_some {acc v : Int} {xs : List Int} (h : sum acc xs = some v) : v = acc + xs.sum := by
  induction xs generalizing acc with
  | nil => simpa [sum] using h.symm
  | cons x xs ih =>
    simp only [sum] at h
    split at h
    · rw [ih h, sum_cons, add_assoc]
    · cases h

/-- No partial sum overflows if the absolute values together do not. -/
theorem sum_of_bounded {acc : Int} {xs : List Int}
    (h : |acc| + (xs.map fun x => |x|).sum ≤ 9223372036854775807) :
    sum acc xs = some (acc + xs.sum) := by
  induction xs generalizing acc with
  | nil => simp [sum]
  | cons x xs ih =>
    rw [map_cons, sum_cons] at h
    have htri := abs_add_le acc x
    have hrest : 0 ≤ (xs.map fun x => |x|).sum :=
      sum_nonneg fun y hy => by
        obtain ⟨z, -, rfl⟩ := mem_map.mp hy
        exact abs_nonneg z
    have hx : InRange (acc + x) := by
      have hbound := abs_le.mp (show |acc + x| ≤ 9223372036854775807 by omega)
      unfold InRange; omega
    simp only [sum, if_pos hx]
    rw [ih (by omega), sum_cons, add_assoc]

end Sql

end Num64
