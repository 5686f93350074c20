/-
# The proleptic Gregorian calendar

Days are numbered from 0000-01-01 and months from January of year 0 (month `m` is
month `m % 12` of year `m / 12`), both over all integers.  `yearStart` and
`monthStart` give the first day of a year and of a month, `yearOf` and `monthOf` the
year and month of a day.  The results say that they fit together: a day lies in its
own month and month starts are strictly increasing, so months tile the days.
-/
import Mathlib.Algebra.Order.Ring.Int

namespace Gregorian

/-- One in a leap year, zero otherwise. -/
def leap (y : Int) : Int := if y % 4 = 0 ∧ (y % 100 ≠ 0 ∨ y % 400 = 0) then 1 else 0

/-- The day number of January 1 of year `y`. -/
def yearStart (y : Int) : Int := 365 * y + (y + 3) / 4 - (y + 99) / 100 + (y + 399) / 400

/-- The year of day `d`: a quotient by the mean year, corrected by at most one. -/
def yearOf (d : Int) : Int :=
  -- 400 years have 146097 days
  let y := 400 * d / 146097
  if d < yearStart y then y - 1 else if yearStart (y + 1) ≤ d then y + 1 else y

/-- Days between the start of a year and the start of its month `k` (from 0). -/
def monthOffset (y k : Int) : Int := (367 * k + 5) / 12 - if k ≤ 1 then 0 else 2 - leap y

/-- The day number of the first day of month `m`. -/
def monthStart (m : Int) : Int := yearStart (m / 12) + monthOffset (m / 12) (m % 12)

/-- The month of day `d`. -/
def monthOf (d : Int) : Int :=
  let y := yearOf d
  let doy := d - yearStart y
  -- after February, as if it had 30 days
  let shifted := if doy < 59 + leap y then doy else doy + 2 - leap y
  12 * y + (12 * shifted + 6) / 367

theorem yearStart_succ (y : Int) : yearStart (y + 1) = yearStart y + 365 + leap y := by
  unfold yearStart leap
  split <;> omega

theorem leap_le (y : Int) : 0 ≤ leap y ∧ leap y ≤ 1 := by
  unfold leap
  split <;> omega

/-- A day lies in its own year. -/
theorem yearOf_spec (d : Int) : yearStart (yearOf d) ≤ d ∧ d < yearStart (yearOf d + 1) := by
  have hlow : yearStart (400 * d / 146097 - 1) ≤ d := by unfold yearStart; omega
  have hhigh : d < yearStart (400 * d / 146097 + 2) := by unfold yearStart; omega
  unfold yearOf
  dsimp only
  split_ifs with h1 h2
  · exact ⟨hlow, by rwa [Int.sub_add_cancel]⟩
  · exact ⟨h2, by rwa [Int.add_assoc]⟩
  · omega

/-- Twelve months after its start a year ends. -/
theorem monthOffset_twelve (y : Int) : monthOffset y 12 = 365 + leap y := by
  unfold monthOffset
  omega

theorem monthStart_eq {y k : Int} (h0 : 0 ≤ k) (h12 : k < 12) :
    monthStart (12 * y + k) = yearStart y + monthOffset y k := by
  have hdiv : (12 * y + k) / 12 = y := by omega
  have hmod : (12 * y + k) % 12 = k := by omega
  rw [monthStart, hdiv, hmod]

/-- The start of the following month, also at the end of a year. -/
theorem monthStart_succ_eq {y k : Int} (h0 : 0 ≤ k) (h12 : k < 12) :
    monthStart (12 * y + k + 1) = yearStart y + monthOffset y (k + 1) := by
  rcases (show k + 1 ≤ 12 from h12).lt_or_eq with hk | hk
  · rw [Int.add_assoc]
    exact monthStart_eq (by omega) hk
  · have h := monthStart_eq (y := y + 1) (k := 0) le_rfl (by decide)
    have hm : 12 * y + k + 1 = 12 * (y + 1) + 0 := by omega
    rw [hm, h, yearStart_succ, hk, monthOffset_twelve]
    simp only [monthOffset]
    omega

/-- A day lies in its own month. -/
theorem monthOf_spec (d : Int) : monthStart (monthOf d) ≤ d ∧ d < monthStart (monthOf d + 1) := by
  obtain ⟨hlo, hhi⟩ := yearOf_spec d
  rw [yearStart_succ] at hhi
  have hl := leap_le (yearOf d)
  have hm : monthOf d = 12 * yearOf d + (monthOf d - 12 * yearOf d) := by omega
  -- the month within its year
  have hk : 0 ≤ monthOf d - 12 * yearOf d ∧ monthOf d - 12 * yearOf d < 12 := by
    unfold monthOf
    dsimp only
    split <;> omega
  rw [hm, monthStart_eq hk.1 hk.2, monthStart_succ_eq hk.1 hk.2]
  unfold monthOf monthOffset
  dsimp only
  split <;> split <;> split <;> omega

theorem monthStart_lt_succ (m : Int) : monthStart m < monthStart (m + 1) := by
  have hm : m = 12 * (m / 12) + m % 12 := by omega
  have h0 : 0 ≤ m % 12 := by omega
  have h12 : m % 12 < 12 := by omega
  have hl := leap_le (m / 12)
  rw [hm, monthStart_eq h0 h12, monthStart_succ_eq h0 h12]
  unfold monthOffset
  split <;> split <;> omega

theorem monthStart_lt {m n : Int} (h : m < n) : monthStart m < monthStart n :=
  strictMono_int_of_lt_succ monthStart_lt_succ h

end Gregorian
