/-
# The days of a span (pkg/cal/codec.go)

`SpanDays` should give the quanta that a span touches, day by day (`CutInto`).  The division that
finds the first day truncates, so that before the epoch the rest of that day is left out unless
the span begins at midnight; and after the last midnight of int64 nanoseconds the end of the day
wraps around.  `spanDays_exact_iff` says that nothing else goes wrong.
-/
import Xolu.Cal.Availability

namespace Xolu.Cal

open List Num64 Stretch DayBitmap

/-- The quantum of the day has an instant of the span. -/
def Span.Touches (p : Span) (day q : Int) : Prop :=
  ∃ t, (p.start ≤ t ∧ t < p.stop) ∧ day + q * nsPerQuantum ≤ t ∧ t < day + (q + 1) * nsPerQuantum

/-- The days in order, each once, with the quanta that the span touches and no slack bit. -/
structure Span.CutInto (p : Span) (days : List DayOccupancy) : Prop where
  sorted : days.Pairwise fun a b => a.dayNanos < b.dayNanos
  slack : ∀ o ∈ days, ∀ i, 288 ≤ i → o.bits.bits.getLsbD i = false
  touched : ∀ day q, (∃ o ∈ days, o.dayNanos = day ∧ o.bits.test q = true) ↔
    (nsPerDay ∣ day ∧ 0 ≤ q ∧ q < quantaPerDay) ∧ p.Touches day q

variable {p : Span} {startN endN day q : Int} {days : List DayOccupancy}

theorem Span.touches_iff (hp : p.Valid) : p.Touches (day * nsPerDay) q ↔
    p.start / nsPerQuantum ≤ 288 * day + q ∧ 288 * day + q < quantumAfter p.stop := by
  unfold Valid at hp
  unfold Touches quantumAfter nsPerQuantum nsPerDay
  constructor
  · rintro ⟨t, ht⟩
    omega
  · intro h
    exact ⟨max p.start ((288 * day + q) * 300000000000), by omega⟩

/-- The quanta of one round. -/
theorem test_dayBits : (dayBits startN endN day).test q = true ↔
    (segment startN endN day).loQ ≤ q ∧ q < (segment startN endN day).hiQ ∧
      0 ≤ q ∧ q < quantaPerDay := by
  show ((⊥ : DayBitmap).setRange (segment startN endN day).loQ
    (segment startN endN day).hiQ).test q = true ↔ _
  rw [test_setRange, test_bot, Bool.false_or, decide_eq_true_eq]

theorem slack_setRange {lo hi : Int} {i : Nat} (hi' : 288 ≤ i) :
    ((⊥ : DayBitmap).setRange lo hi).bits.getLsbD i = false := by
  rcases lt_or_ge i 320 with h | h
  · rw [setRange, getLsbD_foldl_set _ h, Bool.or_eq_false_iff]
    refine ⟨BitVec.getLsbD_zero, decide_eq_false fun hmem => ?_⟩
    have hrange := mem_range'_1.mp hmem
    unfold quantaPerDay at hrange
    split at hrange <;> split at hrange <;> omega
  · exact BitVec.getLsbD_of_ge _ _ h

/-- The entries of `SpanDays` are the rounds of the loop that set a bit. -/
theorem touched_iff {ds : List Int} :
    (∃ o ∈ (ds.map fun day => (⟨day, dayBits startN endN day⟩ : DayOccupancy)).filter
      (fun o => !o.bits.isZero), o.dayNanos = day ∧ o.bits.test q = true) ↔
    day ∈ ds ∧ (dayBits startN endN day).test q = true := by
  simp only [mem_filter, mem_map]
  constructor
  · rintro ⟨_, ⟨⟨d, hd, rfl⟩, -⟩, rfl, htest⟩
    exact ⟨hd, htest⟩
  · rintro ⟨hd, htest⟩
    refine ⟨_, ⟨⟨day, hd, rfl⟩, ?_⟩, rfl, htest⟩
    rw [Bool.not_eq_true']
    refine decide_eq_false fun hz => ?_
    rw [show dayBits startN endN day = ⊥ from hz, test_bot] at htest
    cases htest

section daily

variable (hp : p.Daily)
include hp

theorem Span.Daily.test_iff : (p.start / nsPerDay ≤ day ∧ day < dayAfter p.stop) ∧
        (dayBits p.start p.stop (day * nsPerDay)).test q = true ↔
      (0 ≤ q ∧ q < quantaPerDay) ∧ p.Touches (day * nsPerDay) q := by
  obtain ⟨hvalid, hfirst, hreach⟩ := hp
  have hlast : lastMidnight = 9223286400000000000 := rfl
  rw [Span.touches_iff hvalid, test_dayBits]
  unfold dayAfter
  by_cases hday : p.start / nsPerDay ≤ day ∧ day < (p.stop + nsPerDay - 1) / nsPerDay
  · unfold nsPerDay at hday hfirst
    rw [segment_midnight (by omega) (by unfold nsPerDay; omega) hreach (by unfold nsPerDay; omega)]
    unfold quantaPerDay
    dsimp only
    unfold nsPerDay
    omega
  · refine iff_of_false (fun h => hday h.1) fun h => hday ?_
    unfold quantumAfter quantaPerDay nsPerQuantum at h
    unfold nsPerDay
    omega

/-- A span that begins as the loop does and ends within reach is cut exactly. -/
theorem Span.Daily.cutInto : ∃ days, spanDays p = .ok days ∧ p.CutInto days := by
  refine ⟨_, spanDays_eq_ok_iff.mpr ⟨hp.valid, _, hp.days_eq, rfl⟩, ?_⟩
  rw [unixNano_of_inReach hp.inReach.1, unixNano_of_inReach hp.inReach.2]
  refine ⟨?_, fun o ho => ?_, fun day q => ?_⟩
  · refine List.Pairwise.filter _ (pairwise_map.mpr (pairwise_map.mpr (pairwise_map.mpr ?_)))
    refine pairwise_lt_range.imp fun {m n} hmn => ?_
    unfold nsPerDay
    dsimp only
    omega
  · obtain ⟨day, -, rfl⟩ := mem_map.mp (mem_filter.mp ho).1
    exact fun i hi => slack_setRange hi
  · rw [touched_iff, mem_map]
    constructor
    · rintro ⟨⟨n, hn, rfl⟩, htest⟩
      obtain ⟨hq, htouch⟩ := hp.test_iff.mp ⟨mem_cells.mp hn, htest⟩
      exact ⟨⟨Int.dvd_mul_left .., hq⟩, htouch⟩
    · rintro ⟨⟨⟨n, rfl⟩, hq⟩, htouch⟩
      rw [Int.mul_comm] at htouch ⊢
      obtain ⟨hn, htest⟩ := hp.test_iff.mpr ⟨hq, htouch⟩
      exact ⟨⟨n, mem_cells.mpr hn, rfl⟩, htest⟩

end daily

/-- The loop has a round for each day of a span that is cut exactly. -/
theorem Span.CutInto.mem_days {ds : List Int} (h : p.CutInto ((ds.map fun day =>
      (⟨day, dayBits startN endN day⟩ : DayOccupancy)).filter fun o => !o.bits.isZero)) {t : Int}
    (ht : p.start ≤ t ∧ t < p.stop) : t / nsPerDay * nsPerDay ∈ ds := by
  have htouched := (h.touched (t / nsPerDay * nsPerDay) (t % nsPerDay / nsPerQuantum)).mpr
    ⟨⟨Int.dvd_mul_left .., ?_⟩, t, ht, ?_⟩
  · exact (touched_iff.mp htouched).1
  · unfold quantaPerDay nsPerDay nsPerQuantum
    omega
  · unfold nsPerDay nsPerQuantum
    omega

/-- On the last midnight the end of the day wraps around, and the day seems to be over. -/
theorem test_dayBits_late (hlt : startN < endN)
    (hend : lastMidnight < endN ∧ endN ≤ 9223372036854775807) :
    (dayBits startN endN lastMidnight).test 287 = true := by
  have hlast : lastMidnight = 9223286400000000000 := rfl
  have hwrap : wrap (lastMidnight + nsPerDay) = -9223371273709551616 := by decide
  rw [test_dayBits]
  unfold segment
  simp only [hwrap, if_pos (by omega : -9223371273709551616 < endN)]
  refine ⟨?_, by decide, by decide, by decide⟩
  unfold nsPerQuantum
  rw [wrap_of_inRange (by unfold InRange; split <;> omega),
    Int.tdiv_eq_ediv_of_nonneg (by split <;> omega)]
  split <;> omega

/-- **The days of a span** are exact just for the spans that begin at the epoch or later, or at a
midnight before it, and end at the last midnight of int64 nanoseconds or before. -/
theorem spanDays_exact_iff (p : Span) (hp : p.Valid) :
    (∃ days, spanDays p = .ok days ∧ p.CutInto days) ↔
      (0 ≤ p.start ∨ -lastMidnight ≤ p.start ∧ nsPerDay ∣ p.start) ∧ p.stop ≤ lastMidnight := by
  refine ⟨?_, fun h => Span.Daily.cutInto ⟨hp, h.1, h.2⟩⟩
  rintro ⟨_, hdays, hcut⟩
  obtain ⟨-, ds, hds, rfl⟩ := spanDays_eq_ok_iff.mp hdays
  have hlast : lastMidnight = 9223286400000000000 := rfl
  have hlt : p.start < p.stop := hp
  have hfirst := hcut.mem_days (t := p.start) ⟨le_rfl, hlt⟩
  have hfinal := hcut.mem_days (t := p.stop - 1) ⟨by omega, by omega⟩
  obtain ⟨-, hlow⟩ := Span.days_spec hds _ hfirst
  obtain ⟨hbefore, hhigh⟩ := Span.days_spec hds _ hfinal
  unfold InRange nsPerDay at hlow hhigh
  have hreach : p.stop ≤ lastMidnight := by
    by_contra hlate
    have hday : (p.stop - 1) / nsPerDay * nsPerDay = lastMidnight := by
      unfold nsPerDay
      omega
    rw [hday] at hbefore hfinal
    have hmax : p.stop ≤ 9223372036854775807 := by
      unfold unixNano wrap at hbefore
      omega
    have hN : ∀ t, p.start ≤ t → t ≤ p.stop → InRange t := by
      intro t h1 h2
      unfold InRange
      omega
    have hstart : unixNano p.start = p.start := wrap_of_inRange (hN _ le_rfl hlt.le)
    have hstop : unixNano p.stop = p.stop := wrap_of_inRange (hN _ hlt.le le_rfl)
    rw [hstart, hstop] at hcut
    -- the last quantum of that day begins after all int64 nanoseconds
    obtain ⟨-, t, ht, hquantum⟩ := (hcut.touched _ 287).mp (touched_iff.mpr
      ⟨hfinal, test_dayBits_late hlt ⟨not_le.mp hlate, hmax⟩⟩)
    unfold nsPerQuantum at hquantum
    omega
  refine ⟨?_, hreach⟩
  by_contra hmid
  -- the loop begins at the midnight after the start
  rw [Span.days_of_inReach hp ⟨by omega, by omega⟩ ⟨by omega, hreach⟩] at hds
  obtain rfl := Option.some.inj hds
  obtain ⟨n, hn, hday⟩ := mem_map.mp hfirst
  have hge := (mem_cells.mp hn).1
  rw [Int.tdiv_eq_ediv, Int.sign_eq_one_of_pos (by decide)] at hge
  unfold nsPerDay at *
  split_ifs at hge with hdvd <;> omega

theorem spanDays_exact_daysBefore : ∃ days, spanDays ⟨-172800000000000, 90000000000000⟩ = .ok days ∧
      Span.CutInto ⟨-172800000000000, 90000000000000⟩ days :=
  (spanDays_exact_iff ⟨-172800000000000, 90000000000000⟩ (by decide)).mpr (by decide)

/-- An hour on the last day before the epoch has no days at all. -/
theorem spanDays_misses_hour :
    (⟨-7200000000000, -3600000000000⟩ : Span).Touches (-86400000000000) 264 ∧
      spanDays ⟨-7200000000000, -3600000000000⟩ = .ok [] :=
  ⟨⟨-7200000000000, by decide⟩, by decide +kernel⟩

end Xolu.Cal
