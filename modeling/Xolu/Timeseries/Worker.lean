/-
# The worker of a rollup (pkg/timeseries/rollup.go)

The worker sleeps until its timer fires, runs the bucket that was closed last by then, and sets the
timer for the end of the next bucket and the late window.  The bucket is found from the time of the
wake-up alone, not from the one that is due.

Every bucket is run once, in order and not before its late window is over if and only if every
wake-up is in the bucket after the one that is due (`Schedule.rollsUpEvery_iff`).  With a late
window as long as a bucket that is impossible.
-/
import Xolu.Lib.Tiling
import Xolu.Timeseries.Rollup

namespace Xolu.Timeseries

open Tiling Int

/-- The longest duration, an int64. -/
def maxDuration : Int := 9223372036854775807

/-- `Time.Sub`, which stays in the range of a duration. -/
def timeSub (t u : Int) : Int := max (-9223372036854775808) (min maxDuration (t - u))

/-- The time at which a timer fires that is set to the duration up to a time. -/
def timerAt (next now : Int) : Int := now + max 0 (timeSub next now)

variable (d : RollupDef)

/-- What the first timer is set for: the end of the bucket of the start, and the late window. -/
def RollupDef.firstTick (now : Int) : Int :=
  let next := truncate now d.bucketDuration + d.bucketDuration + d.lateWindow
  if next < now then next + d.bucketDuration else next

/-- A worker in its loop: when its timer fires, and the bucket that was run last. -/
structure Worker where
  timer : Int
  bucket : Option (Int × Int)
deriving DecidableEq, Repr

/-- The loop is entered at a time. -/
def Worker.start (now : Int) : Worker := ⟨timerAt (d.firstTick now) now, none⟩

/-- One round of the loop: the timer fired at a time, and it is now that it is set again. -/
def Worker.tick (t now : Int) : Worker :=
  let bucketEnd := truncate t d.bucketDuration
  let bucketStart := bucketEnd - d.bucketDuration
  ⟨timerAt (bucketEnd + d.bucketDuration + d.lateWindow) now, some (bucketStart, bucketEnd)⟩

/-- The worker after so many rounds. -/
def workerAt (start : Int) (wake clock : ℕ → Int) : ℕ → Worker
  | 0 => .start d start
  | k + 1 => .tick d (wake k) (clock k)

/-- Wake-ups that go on for ever: a timer is read at or after the time it fires, and set again
after that. -/
structure Schedule (d : RollupDef) where
  start : Int
  wake : ℕ → Int
  clock : ℕ → Int
  fired : ∀ k, (workerAt d start wake clock k).timer ≤ wake k
  after : ∀ k, wake k ≤ clock k

namespace Schedule

variable {d : RollupDef}

/-- The bucket that is run at a wake-up. -/
def bucket (σ : Schedule d) (k : ℕ) : Option (Int × Int) :=
  (workerAt d σ.start σ.wake σ.clock (k + 1)).bucket

/-- Every bucket that ends after the start is run once, they are run in order, and none before its
end and the late window. -/
structure RollsUpEvery (σ : Schedule d) : Prop where
  once : ∀ b, truncate b d.bucketDuration = b → σ.start < b →
    ∃! k, σ.bucket k = some (b - d.bucketDuration, b)
  order : ∀ k k' a a' b b', σ.bucket k = some (a, b) → σ.bucket k' = some (a', b') → k ≤ k' → b ≤ b'
  late : ∀ k a b, σ.bucket k = some (a, b) → b + d.lateWindow ≤ σ.wake k

variable (σ : Schedule d)

/-- The end of the bucket of the start. -/
def firstEnd : Int := truncate σ.start d.bucketDuration + d.bucketDuration

/-- The wake-ups come in time: apart from some before the first bucket ends, one for every bucket,
after its end and the late window and before the end of the next one. -/
def Timely : Prop :=
  ∃ m, (∀ k < m, σ.wake k < σ.firstEnd) ∧ ∀ k : ℕ,
    σ.firstEnd + k * d.bucketDuration + max 0 d.lateWindow ≤ σ.wake (m + k) ∧
      σ.wake (m + k) < σ.firstEnd + (k + 1) * d.bucketDuration

/-! ### The numbers of the buckets -/

theorem le_timerAt (next now : Int) : now ≤ timerAt next now :=
  le_add_of_nonneg_right (le_max_left 0 _)

/-- A timer does not fire too early if the duration is in range. -/
theorem le_timerAt_of_le {next now : Int} (h : next - now ≤ maxDuration) :
    next ≤ timerAt next now := by
  unfold timerAt timeSub
  omega

theorem wake_le_wake {k k' : ℕ} (h : k ≤ k') : σ.wake k ≤ σ.wake k' := by
  refine monotone_nat_of_le_succ (fun k => ?_) h
  calc σ.wake k ≤ σ.clock k := σ.after k
    _ ≤ (workerAt d σ.start σ.wake σ.clock (k + 1)).timer := le_timerAt _ _
    _ ≤ σ.wake (k + 1) := σ.fired (k + 1)

/-- Buckets counted from an end of one. -/
theorem truncate_eq {dur b : Int} (hdur : 0 < dur) (hb : truncate b dur = b) (t : Int) :
    truncate t dur = b + (t - b) / dur * dur := by
  rw [truncate, if_neg (not_le.mpr hdur)] at hb ⊢
  have hzero : (b - zeroTime) % dur = 0 := by omega
  have hmod : (t - zeroTime) % dur = (t - b) % dur := by
    rw [show t - zeroTime = t - b + (b - zeroTime) by omega, add_emod, hzero, add_zero, emod_emod]
  have hdiv := ediv_mul_add_emod (t - b) dur
  omega

theorem truncate_add_mul {dur b : Int} (hdur : 0 < dur) (hb : truncate b dur = b) (i : Int) :
    truncate (b + i * dur) dur = b + i * dur := by
  rw [truncate_eq hdur hb, add_sub_cancel_left, mul_ediv_cancel _ hdur.ne']

theorem truncate_add_dur {dur : Int} (hdur : 0 < dur) (t : Int) :
    truncate (truncate t dur + dur) dur = truncate t dur + dur := by
  rw [truncate, truncate, if_neg (not_le.mpr hdur), if_neg (not_le.mpr hdur)]
  have hdiv := ediv_mul_add_emod (t - zeroTime) dur
  have hmul : t - (t - zeroTime) % dur + dur - zeroTime = ((t - zeroTime) / dur + 1) * dur := by
    rw [add_mul, one_mul]
    omega
  rw [hmul, mul_emod_left, sub_zero]

theorem truncate_le_and_lt {dur : Int} (hdur : 0 < dur) (t : Int) :
    truncate t dur ≤ t ∧ t < truncate t dur + dur := by
  rw [truncate, if_neg (not_le.mpr hdur)]
  have hlow := emod_nonneg (t - zeroTime) hdur.ne'
  have hhigh := emod_lt_of_pos (t - zeroTime) hdur
  omega

/-- The number of the bucket that is run at a wake-up, from the end of the first one on. -/
def index (k : ℕ) : Int := (σ.wake k - σ.firstEnd) / d.bucketDuration

section Numbers

variable {σ : Schedule d} (hdur : 0 < d.bucketDuration)

include hdur

theorem truncate_wake (k : ℕ) :
    truncate (σ.wake k) d.bucketDuration = σ.firstEnd + σ.index k * d.bucketDuration :=
  truncate_eq hdur (truncate_add_dur hdur σ.start) (σ.wake k)

theorem bucket_eq_some_iff {k : ℕ} {a b : Int} : σ.bucket k = some (a, b) ↔
    a = b - d.bucketDuration ∧ b = σ.firstEnd + σ.index k * d.bucketDuration := by
  have hbucket : σ.bucket k = some (truncate (σ.wake k) d.bucketDuration - d.bucketDuration,
      truncate (σ.wake k) d.bucketDuration) := rfl
  rw [hbucket, truncate_wake hdur, Option.some.injEq, Prod.mk.injEq]
  omega

theorem index_le_index {k k' : ℕ} (hle : k ≤ k') : σ.index k ≤ σ.index k' :=
  Int.ediv_le_ediv hdur (Int.sub_le_sub_right (σ.wake_le_wake hle) _)

/-- The ends of buckets after the start are those from the first one on. -/
theorem end_after_start_iff {b : Int} : truncate b d.bucketDuration = b ∧ σ.start < b ↔
    ∃ n : ℕ, b = σ.firstEnd + n * d.bucketDuration := by
  have hfirst := truncate_add_dur hdur σ.start
  obtain ⟨hlow, hhigh⟩ := truncate_le_and_lt hdur σ.start
  rw [← firstEnd] at hfirst hhigh
  constructor
  · rintro ⟨hb, hlt⟩
    have heq := truncate_eq hdur hfirst b
    -- an earlier end would be at or before the start
    have hnonneg : 0 ≤ (b - σ.firstEnd) / d.bucketDuration := by
      by_contra hneg
      have hmul : (b - σ.firstEnd) / d.bucketDuration * d.bucketDuration ≤ -1 * d.bucketDuration :=
        mul_le_mul_of_nonneg_right (by omega) hdur.le
      rw [firstEnd] at hmul heq
      omega
    refine ⟨((b - σ.firstEnd) / d.bucketDuration).toNat, ?_⟩
    rw [toNat_of_nonneg hnonneg, ← heq, hb]
  · rintro ⟨n, rfl⟩
    have hmul := mul_nonneg (natCast_nonneg n) hdur.le
    exact ⟨truncate_add_mul hdur hfirst n, by omega⟩

theorem once_iff : (∀ b, truncate b d.bucketDuration = b → σ.start < b →
      ∃! k, σ.bucket k = some (b - d.bucketDuration, b)) ↔ ∀ n : ℕ, ∃! k, σ.index k = n := by
  have hindex : ∀ (n : ℕ) (k : ℕ), σ.bucket k = some (σ.firstEnd + n * d.bucketDuration -
      d.bucketDuration, σ.firstEnd + n * d.bucketDuration) ↔ σ.index k = n := by
    intro n k
    rw [bucket_eq_some_iff hdur, and_iff_right rfl, add_right_inj,
      mul_eq_mul_right_iff hdur.ne', eq_comm]
  constructor
  · intro honce n
    obtain ⟨hb, hlt⟩ := (end_after_start_iff hdur).mpr ⟨n, rfl⟩
    simpa only [hindex] using honce _ hb hlt
  · intro honce b hb hlt
    obtain ⟨n, rfl⟩ := (end_after_start_iff hdur).mp ⟨hb, hlt⟩
    simpa only [hindex] using honce n

/-- The wake-ups of a bucket. -/
theorem index_eq_iff {k : ℕ} {i : Int} : σ.index k = i ↔
    σ.firstEnd + i * d.bucketDuration ≤ σ.wake k ∧
      σ.wake k < σ.firstEnd + (i + 1) * d.bucketDuration := by
  rw [index, ediv_eq_iff_of_pos hdur, add_mul, one_mul]
  omega

theorem index_neg_iff {k : ℕ} : σ.index k < 0 ↔ σ.wake k < σ.firstEnd := by
  rw [index, Int.ediv_lt_iff_lt_mul hdur, zero_mul]
  omega

end Numbers

/-! ### In time -/

variable (σ : Schedule d)

theorem firstTick_eq (hdur : 0 < d.bucketDuration) (hlate : 0 ≤ d.lateWindow) :
    d.firstTick σ.start = σ.firstEnd + d.lateWindow := by
  have hhigh := (truncate_le_and_lt hdur σ.start).2
  exact if_neg (by omega)

/-- Without a negative late window no wake-up is before the first bucket ends. -/
theorem firstEnd_le_wake (hdur : 0 < d.bucketDuration) (hmax : d.bucketDuration ≤ maxDuration)
    (hlate : 0 ≤ d.lateWindow) (k : ℕ) : σ.firstEnd ≤ σ.wake k := by
  obtain ⟨hlow, hhigh⟩ := truncate_le_and_lt hdur σ.start
  have hfired := (σ.fired 0).trans (σ.wake_le_wake (Nat.zero_le k))
  have htimer : (workerAt d σ.start σ.wake σ.clock 0).timer =
      timerAt (σ.firstEnd + d.lateWindow) σ.start := by
    rw [← firstTick_eq σ hdur hlate]
    rfl
  rw [htimer, timerAt, timeSub] at hfired
  rw [firstEnd] at hfired ⊢
  omega

/-- **Every bucket is rolled up** once, in order and late enough, if and only if the wake-ups come
in time. -/
theorem rollsUpEvery_iff (hdur : 0 < d.bucketDuration) (hmax : d.bucketDuration ≤ maxDuration)
    (σ : Schedule d) : σ.RollsUpEvery ↔ σ.Timely := by
  constructor
  · intro h
    obtain ⟨m, hearly, hcount⟩ :=
      (visits_once_iff fun _ _ => index_le_index hdur).mp ((once_iff hdur).mp h.once)
    refine ⟨m, fun k hk => (index_neg_iff hdur).mp (hearly k hk), fun k => ?_⟩
    obtain ⟨hlow, hhigh⟩ := (index_eq_iff hdur).mp (hcount k)
    have hlate := h.late (m + k) _ _ ((bucket_eq_some_iff hdur).mpr ⟨rfl, rfl⟩)
    rw [hcount k] at hlate
    exact ⟨by omega, hhigh⟩
  · rintro ⟨m, hearly, htimely⟩
    have hcount : ∀ k : ℕ, σ.index (m + k) = k := by
      intro k
      obtain ⟨hlow, hhigh⟩ := htimely k
      exact (index_eq_iff hdur).mpr ⟨by omega, hhigh⟩
    have honce := (visits_once_iff fun _ _ => index_le_index hdur).mpr
      ⟨m, fun k hk => (index_neg_iff hdur).mpr (hearly k hk), hcount⟩
    refine ⟨(once_iff hdur).mpr honce, fun k k' a a' b b' hb hb' hle => ?_, fun k a b hb => ?_⟩
    · rw [bucket_eq_some_iff hdur] at hb hb'
      have hindex : σ.index k ≤ σ.index k' := index_le_index hdur hle
      have hmul := mul_le_mul_of_nonneg_right hindex hdur.le
      omega
    · rw [bucket_eq_some_iff hdur] at hb
      by_cases hk : k < m
      · -- an early wake-up has a negative late window
        have hneg : ¬ 0 ≤ d.lateWindow := fun hlate =>
          absurd (hearly k hk) (not_lt.mpr (σ.firstEnd_le_wake hdur hmax hlate k))
        have hlow := ((index_eq_iff hdur).mp (rfl : σ.index k = σ.index k)).1
        omega
      · obtain ⟨i, rfl⟩ := Nat.exists_eq_add_of_le (not_lt.mp hk)
        have hlow := (htimely i).1
        rw [hcount i] at hb
        omega

/-- With a late window that is not negative and fits into the timer, the wake-ups have to come
before the end of the next bucket. -/
theorem timely_iff (hdur : 0 < d.bucketDuration) (hlate : 0 ≤ d.lateWindow)
    (hmax : d.bucketDuration + d.lateWindow ≤ maxDuration) :
    σ.Timely ↔ ∀ k : ℕ, σ.wake k < σ.firstEnd + (k + 1) * d.bucketDuration := by
  have hnot := fun k => σ.firstEnd_le_wake hdur (by omega) hlate k
  constructor
  · rintro ⟨m, hearly, htimely⟩ k
    obtain rfl : m = 0 := by
      by_contra hm
      exact absurd (hearly 0 (Nat.pos_of_ne_zero hm)) (not_lt.mpr (hnot 0))
    have := (htimely k).2
    rwa [Nat.zero_add] at this
  · intro htimely
    refine ⟨0, fun k hk => absurd hk (Nat.not_lt_zero k), fun k => ?_⟩
    rw [Nat.zero_add]
    refine ⟨?_, htimely k⟩
    -- each timer is set for the bucket after the one that was run
    induction k with
    | zero =>
      obtain ⟨hlow, hhigh⟩ := truncate_le_and_lt hdur σ.start
      have hfirst : d.firstTick σ.start = σ.firstEnd + d.lateWindow := firstTick_eq σ hdur hlate
      have htimer : d.firstTick σ.start ≤ timerAt (d.firstTick σ.start) σ.start := by
        refine le_timerAt_of_le ?_
        rw [hfirst, firstEnd]
        omega
      have hfired : timerAt (d.firstTick σ.start) σ.start ≤ σ.wake 0 := σ.fired 0
      omega
    | succ k ih =>
      have hindex : σ.index k = k := (index_eq_iff hdur).mpr ⟨by omega, htimely k⟩
      have hfired : timerAt (truncate (σ.wake k) d.bucketDuration + d.bucketDuration +
          d.lateWindow) (σ.clock k) ≤ σ.wake (k + 1) := σ.fired (k + 1)
      rw [truncate_wake hdur, hindex] at hfired
      have hafter := σ.after k
      have htimer : σ.firstEnd + k * d.bucketDuration + d.bucketDuration + d.lateWindow ≤
          timerAt (σ.firstEnd + k * d.bucketDuration + d.bucketDuration + d.lateWindow)
            (σ.clock k) := le_timerAt_of_le (by omega)
      rw [Nat.cast_add, Nat.cast_one, add_mul, one_mul]
      omega

/-- A late window of three nanoseconds for buckets of ten. -/
def tensLate : RollupDef := ⟨"tens", 1, 2, 10, 3⟩

/-- A timer that is always in time. -/
def punctual : Schedule tensLate where
  start := 5
  wake k := 13 + 10 * k
  clock k := 13 + 10 * k
  fired k := by
    rcases k with - | k
    · decide
    · change timerAt (truncate (13 + 10 * (k : Int)) 10 + 10 + 3) (13 + 10 * k) ≤ _
      unfold timerAt timeSub truncate zeroTime maxDuration
      omega
  after k := le_rfl

theorem rollsUpEvery_punctual : punctual.RollsUpEvery :=
  (rollsUpEvery_iff (by decide) (by decide) punctual).mpr
    ((timely_iff punctual (by decide) (by decide) (by decide)).mpr fun k => by
      change (13 + 10 * (k : Int)) < truncate 5 10 + 10 + (k + 1) * 10
      have : truncate 5 10 = 0 := by decide
      omega)

/-- A late window as long as the bucket. -/
def tensLater : RollupDef := ⟨"tens", 1, 2, 10, 10⟩

/-- A timer that fires when it is set for. -/
def everyOther : Schedule tensLater where
  start := 5
  wake k := 20 + 20 * k
  clock k := 20 + 20 * k
  fired k := by
    rcases k with - | k
    · decide
    · change timerAt (truncate (20 + 20 * (k : Int)) 10 + 10 + 10) (20 + 20 * k) ≤ _
      unfold timerAt timeSub truncate zeroTime maxDuration
      omega
  after k := le_rfl

/-- The bucket that ends at 20 is run first, at 20 and not at 30, and the one that ends at 10 is not
run at all. -/
theorem everyOther_skips : everyOther.wake 0 = 20 ∧ everyOther.bucket 0 = some (10, 20) ∧
    ¬ everyOther.RollsUpEvery := by
  have hfirst : everyOther.bucket 0 = some (10, 20) := by decide
  refine ⟨rfl, hfirst, fun h => ?_⟩
  obtain ⟨k, hk, -⟩ := h.once 10 (by decide) (by decide)
  -- it would come after the one that ends at 20
  have horder := h.order 0 k _ _ _ _ hfirst hk (Nat.zero_le k)
  omega

end Schedule

end Xolu.Timeseries
