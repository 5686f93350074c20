/-
# Instants and time grains (pkg/chronicle)

An instant is a number of nanoseconds since the Unix epoch, in UTC.  A `Grain` is the
source's record of two operations, the start of the bucket that holds an instant and
the start of the following bucket; `fixedGrain` cuts the line into equal widths
counted from Go's zero time (year 1), `monthsGrain` into runs of calendar months.

Main results: `fixedGrain_tiles` and `monthsGrain_tiles` (both kinds cut the line into
half-open buckets), and the nesting of months in days and of longer runs of months in
shorter ones.
-/
import Xolu.Lib.Tiling
import Xolu.Lib.Gregorian
import Mathlib.Data.Int.ConditionallyCompleteOrder
import Mathlib.Tactic.Linarith

namespace Xolu

open Tiling Gregorian Int

namespace Instant

/-- `time.Time.Unix`: whole seconds since the epoch, rounded down. -/
def unix (t : Int) : Int := t / 1000000000

/-- `time.Unix(sec, 0)`. -/
def ofUnix (sec : Int) : Int := sec * 1000000000

/-- Go's zero time, January 1 of year 1. -/
def zeroTime : Int := -62135596800000000000

/-- The calendar month of an instant, counted from January of year 0. -/
def month (t : Int) : Int := monthOf (t / 86400000000000 + 719528)

/-- The first instant of a calendar month. -/
def ofMonth (m : Int) : Int := (monthStart m - 719528) * 86400000000000

/-- `AddDate(0, n, 0)`: same offset into the month, `n` months on. -/
def addMonths (t n : Int) : Int := ofMonth (month t + n) + (t - ofMonth (month t))

theorem unix_ofUnix (sec : Int) : unix (ofUnix sec) = sec := by
  unfold unix ofUnix; omega

theorem ofUnix_unix_le (t : Int) : ofUnix (unix t) ≤ t := by
  unfold unix ofUnix; omega

theorem le_ofUnix_iff {t sec : Int} : ofUnix sec ≤ t ↔ sec ≤ unix t := by
  unfold unix ofUnix; omega

theorem unix_mono {s t : Int} (h : s ≤ t) : unix s ≤ unix t := by
  unfold unix; omega

theorem ofMonth_month_le (t : Int) : ofMonth (month t) ≤ t := by
  have h := (monthOf_spec (t / 86400000000000 + 719528)).1
  unfold ofMonth month
  omega

theorem lt_ofMonth_succ (t : Int) : t < ofMonth (month t + 1) := by
  have h := (monthOf_spec (t / 86400000000000 + 719528)).2
  unfold ofMonth month
  omega

theorem ofMonth_strictMono : StrictMono ofMonth := by
  intro m n h
  have := monthStart_lt h
  unfold ofMonth
  omega

/-- The month of `t` is the only one whose bounds hold `t`. -/
theorem month_eq {t m : Int} (h₁ : ofMonth m ≤ t) (h₂ : t < ofMonth (m + 1)) : month t = m := by
  have hlt₁ : m < month t + 1 := ofMonth_strictMono.lt_iff_lt.mp (h₁.trans_lt (lt_ofMonth_succ t))
  have hlt₂ : month t < m + 1 := ofMonth_strictMono.lt_iff_lt.mp ((ofMonth_month_le t).trans_lt h₂)
  omega

@[simp] theorem month_ofMonth (m : Int) : month (ofMonth m) = m :=
  month_eq le_rfl (ofMonth_strictMono (by omega))

theorem month_mono {s t : Int} (h : s ≤ t) : month s ≤ month t := by
  have := ofMonth_strictMono.lt_iff_lt.mp
    ((ofMonth_month_le s).trans_lt (h.trans_lt (lt_ofMonth_succ t)))
  omega

end Instant

open Instant

namespace Chronicle

/-- One level of the time hierarchy: bucket starts, and the start after a given one. -/
structure Grain where
  name : String
  truncate : Int → Int
  next : Int → Int

/-- The two operations of the grain cut the line into half-open buckets. -/
def Grain.Tiles (g : Grain) : Prop := Tiling.Tiles g.truncate g.next

/-- `time.Time.Truncate`: down to a multiple of `width` since the zero time. -/
def truncateTo (width t : Int) : Int := t - (t - zeroTime) % width

variable (name : String)

/-- A grain of fixed width (hour, day, week, ...). -/
def fixedGrain (width : Int) : Grain where
  name := name
  truncate := truncateTo width
  next s := s + width

/-- A calendar grain of `n` whole months, counted from January of each year. -/
def monthsGrain (n : Int) : Grain where
  name := name
  truncate t := ofMonth (month t - month t % 12 % n)
  next s := addMonths s n

/-- Calendar months. -/
def monthGrain : Grain := monthsGrain name 1

/-! ### Fixed grains -/

theorem truncateTo_eq_iff {w t : Int} : truncateTo w t = t ↔ (t - zeroTime) % w = 0 := by
  unfold truncateTo; omega

theorem truncateTo_aligned (w t : Int) : (truncateTo w t - zeroTime) % w = 0 := by
  unfold truncateTo
  rw [show t - (t - zeroTime) % w - zeroTime = (t - zeroTime) - (t - zeroTime) % w by omega,
    sub_emod, emod_emod_of_dvd _ dvd_rfl, sub_self, zero_emod]

theorem fixedGrain_tiles {w : Int} (hw : 0 < w) : (fixedGrain name w).Tiles where
  trunc_le t := by
    have := emod_nonneg (t - zeroTime) hw.ne'
    show truncateTo w t ≤ t
    unfold truncateTo
    omega
  mono := by
    intro s t h
    -- truncation keeps the quotient, which is monotone
    have hs := emod_add_mul_ediv (s - zeroTime) w
    have ht := emod_add_mul_ediv (t - zeroTime) w
    have hd : (s - zeroTime) / w ≤ (t - zeroTime) / w := Int.ediv_le_ediv hw (by omega)
    have := mul_le_mul_of_nonneg_left hd hw.le
    show truncateTo w s ≤ truncateTo w t
    unfold truncateTo
    omega
  idem t := truncateTo_eq_iff.mpr (truncateTo_aligned w t)
  lt_next t := by
    have := emod_lt_of_pos (t - zeroTime) hw
    show t < truncateTo w t + w
    unfold truncateTo
    omega
  trunc_next t := by
    refine truncateTo_eq_iff.mpr ?_
    show (truncateTo w t + w - zeroTime) % w = 0
    rw [show truncateTo w t + w - zeroTime = truncateTo w t - zeroTime + w by omega,
      add_emod_right, truncateTo_aligned]

/-- No boundary is stepped over. -/
theorem fixedGrain_next_le {w s b : Int} (hs : truncateTo w s = s) (hb : truncateTo w b = b)
    (hlt : s < b) : (fixedGrain name w).next s ≤ b := by
  rw [truncateTo_eq_iff] at hs hb
  have hle := le_of_dvd (by omega) (Int.dvd_sub (dvd_of_emod_eq_zero hb) (dvd_of_emod_eq_zero hs))
  show s + w ≤ b
  omega

/-- A fixed grain nests in every fixed grain whose width divides its own. -/
theorem fixedGrain_nests (n₁ n₂ : String) {w v : Int} (h : w ∣ v) :
    Nests (fixedGrain n₁ w).truncate (fixedGrain n₂ v).truncate := by
  intro t
  refine truncateTo_eq_iff.mpr ?_
  rw [← emod_emod_of_dvd _ h]
  show (truncateTo v t - zeroTime) % v % w = 0
  rw [truncateTo_aligned, zero_emod]

/-! ### Calendar grains -/

theorem monthsGrain_truncate (n t : Int) :
    (monthsGrain name n).truncate t = ofMonth (month t - month t % 12 % n) := rfl

/-- In a year cut into runs of `n` months, `n` a divisor of twelve, a run starts at
the multiples of `n`. -/
theorem monthsGrain_tiles {n : Int} (hn : 0 < n) (h12 : n ∣ 12) : (monthsGrain name n).Tiles where
  trunc_le t := by
    have h := emod_nonneg (month t % 12) hn.ne'
    have hle : month t - month t % 12 % n ≤ month t := by omega
    exact (ofMonth_strictMono.monotone hle).trans (ofMonth_month_le t)
  mono := by
    intro s t h
    -- as for fixed widths, with months in place of instants
    have hm := month_mono h
    have hs := emod_add_mul_ediv (month s) n
    have ht := emod_add_mul_ediv (month t) n
    have hd := mul_le_mul_of_nonneg_left (Int.ediv_le_ediv hn hm) hn.le
    refine ofMonth_strictMono.monotone ?_
    rw [emod_emod_of_dvd _ h12, emod_emod_of_dvd _ h12]
    omega
  idem t := by
    rw [monthsGrain_truncate, monthsGrain_truncate, month_ofMonth, emod_emod_of_dvd _ h12,
      emod_emod_of_dvd _ h12, sub_emod, emod_emod_of_dvd _ dvd_rfl, sub_self,
      zero_emod, sub_zero]
  lt_next t := by
    have hlt := emod_lt_of_pos (month t) hn
    show t < addMonths (ofMonth _) n
    rw [addMonths, month_ofMonth, sub_self, add_zero, emod_emod_of_dvd _ h12]
    exact (lt_ofMonth_succ t).trans_le (ofMonth_strictMono.monotone (by omega))
  trunc_next t := by
    simp only [monthsGrain, addMonths, month_ofMonth, sub_self, add_zero, emod_emod_of_dvd _ h12]
    rw [add_emod_right, sub_emod, emod_emod_of_dvd _ dvd_rfl, sub_self, zero_emod, sub_zero]

theorem monthsGrain_truncate_eq_iff {n t : Int} (h12 : n ∣ 12) :
    (monthsGrain name n).truncate t = t ↔ ofMonth (month t) = t ∧ n ∣ month t := by
  rw [monthsGrain_truncate, emod_emod_of_dvd _ h12, dvd_iff_emod_eq_zero]
  constructor
  · intro h
    have hmonth := congrArg month h
    rw [month_ofMonth] at hmonth
    have hzero : month t % n = 0 := by omega
    rw [hzero, sub_zero] at h
    exact ⟨h, hzero⟩
  · rintro ⟨h, hzero⟩
    rw [hzero, sub_zero, h]

theorem monthsGrain_next_le {n s b : Int} (h12 : n ∣ 12) (hs : (monthsGrain name n).truncate s = s)
    (hb : (monthsGrain name n).truncate b = b) (hlt : s < b) : (monthsGrain name n).next s ≤ b := by
  rw [monthsGrain_truncate_eq_iff name h12] at hs hb
  rw [← hs.1, ← hb.1] at hlt
  have hmonths := ofMonth_strictMono.lt_iff_lt.mp hlt
  have hle := le_of_dvd (by omega) (Int.dvd_sub hb.2 hs.2)
  show ofMonth (month s + n) + (s - ofMonth (month s)) ≤ b
  rw [hs.1, sub_self, add_zero, ← hb.1]
  exact ofMonth_strictMono.monotone (by omega)

/-- Runs of months nest in the days. -/
theorem day_nests_months (n₁ n₂ : String) (n : Int) :
    Nests (fixedGrain n₁ 86400000000000).truncate (monthsGrain n₂ n).truncate := by
  intro t
  refine truncateTo_eq_iff.mpr ?_
  rw [monthsGrain_truncate]
  unfold ofMonth zeroTime
  omega

theorem months_nest_months (n₁ n₂ : String) {n k : Int} (hnk : n ∣ k) (hk : k ∣ 12) :
    Nests (monthsGrain n₁ n).truncate (monthsGrain n₂ k).truncate := by
  intro t
  have h0 : (month t - month t % k) % n = 0 := by
    rw [sub_emod, emod_emod_of_dvd _ hnk, sub_self, zero_emod]
  rw [monthsGrain_truncate, monthsGrain_truncate, month_ofMonth, emod_emod_of_dvd _ hk,
    emod_emod_of_dvd _ (hnk.trans hk), h0, sub_zero]

end Chronicle

end Xolu
