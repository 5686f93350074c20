/-
# Checking a span before it is booked (pkg/cal/match.go, pkg/cal/commit.go)

`Check` says whether a span could be booked: it reads the index of the calendar and finds the
span feasible if none of its quanta is taken on either plane.  The writes that look for
conflicts do not read the index; `spanConflicts` compares spans of records.

The index holds the quanta of a booking with its buffer, and `spanConflicts` compares the spans
without it.  For aligned bookings within reach that is the only difference:
`check_agrees_iff`.
-/
import Xolu.Cal.Days
import Xolu.Cal.Openings
import Xolu.Cal.Exclusive

namespace Xolu.Cal

open List Num64 Stretch Derived Source Occupancy

structure CheckResult where
  feasible : Bool
  nearestOpenings : List Span
deriving DecidableEq, Repr

namespace IndexStore

def readOccupancy (x : IndexStore) (calendarID : String) : Except ReadError Occupancy :=
  match x.ordinals calendarID with
  | none => .error (.unknownCalendar calendarID)
  | some ord =>
    .ok ⟨fun day => x.days ⟨ord, .binding, day⟩, fun day => x.days ⟨ord, .proposed, day⟩⟩

/-- `Check`; the mode is not looked at. -/
def check (x : IndexStore) (c : Calendar) (span : Span) (_mode : Mode) :
    Except ReadError CheckResult :=
  if ¬ span.Valid then .error .invalidPeriod
  else
    match x.readOccupancy c.calendarID with
    | .error e => .error e
    | .ok o =>
      match o.countQuanta span with
      | .error e => .error e
      | .ok counts =>
        if counts.binding = 0 ∧ counts.proposed = 0 then .ok ⟨true, []⟩
        else
          match o.openings ⟨span.start - nsPerDay, span.stop + nsPerDay⟩
              (instantSub span.stop span.start) .earliest with
          | .error e => .error e
          | .ok ops => .ok ⟨false, (ops.take 3).map Opening.span⟩

end IndexStore

/-! ### The quanta of a span in the index -/

variable {p : Span}

theorem test_total {ρ κ : Type} {c : ρ → κ → DayBitmap} {rows : List ρ} {k : κ} {q : Int} :
    (total c rows k).test q = true ↔ ∃ r ∈ rows, (c r k).test q = true := by
  induction rows with
  | nil => simp
  | cons r rows ih => simp [ih]

/-- The span has the quantum. -/
def Span.Covers (p : Span) (g : Int) : Prop := p.start / nsPerQuantum ≤ g ∧ g < quantumAfter p.stop

/-- **The quanta of a span.**  In the bits of its days a span has the quanta it touches. -/
theorem test_bitsOf (hp : p.Readable) (g : Int) :
    (bitsOf p (g / 288 * nsPerDay)).test (g % 288) = true ↔ p.Covers g := by
  obtain ⟨days, hdays, hcut⟩ := hp.daily.cutInto
  have hunder : ∀ o : DayOccupancy, (o.under id (g / 288 * nsPerDay)).test (g % 288) = true ↔
      o.dayNanos = g / 288 * nsPerDay ∧ o.bits.test (g % 288) = true := by
    intro o
    unfold DayOccupancy.under
    split <;> simp_all
  rw [bitsOf_ok hdays, bitsAt, test_total]
  simp only [hunder]
  rw [hcut.touched, Span.touches_iff hp.valid, Int.mul_ediv_add_emod, and_iff_right]
  · rfl
  · refine ⟨Int.dvd_mul_left .., ?_⟩
    unfold quantaPerDay
    omega

/-- Whether an instant is at the beginning of a quantum. -/
def OnGrid (t : Int) : Prop := t % nsPerQuantum = 0
deriving Decidable

/-- Spans that begin on the grid have a quantum in common iff they overlap. -/
theorem covers_common_iff {a : Span} (ha : OnGrid a.start) (hp : OnGrid p.start)
    (hav : a.start < a.stop) (hpv : p.start < p.stop) :
    (∃ g, a.Covers g ∧ p.Covers g) ↔ a.Overlaps p := by
  unfold OnGrid nsPerQuantum at ha hp
  rw [Span.overlaps_iff]
  unfold Span.Covers quantumAfter nsPerQuantum
  constructor
  · rintro ⟨g, hg⟩
    omega
  · intro h
    refine ⟨max (a.start / 300000000000) (p.start / 300000000000), ?_⟩
    omega

/-! ### Check and the records -/

/-- The window that `Check` searches for openings is within reach. -/
theorem exists_openings {o : Occupancy} (hp : p.Readable)
    (hreach : p.stop + nsPerDay ≤ lastMidnight) :
    ∃ ops, o.openings ⟨p.start - nsPerDay, p.stop + nsPerDay⟩ (instantSub p.stop p.start)
      .earliest = .ok ops := by
  obtain ⟨hnonneg, hvalid, hstop⟩ := hp
  have hlast : lastMidnight = 9223286400000000000 := rfl
  have hday : nsPerDay = 86400000000000 := rfl
  have hw : (⟨p.start - nsPerDay, p.stop + nsPerDay⟩ : Span).Valid := by
    show p.start - nsPerDay < p.stop + nsPerDay
    omega
  have hdays := Span.days_of_inReach hw ⟨by dsimp only; omega, by dsimp only; omega⟩
    ⟨by dsimp only; omega, hreach⟩
  have hdur : 0 < instantSub p.stop p.start := by
    rw [instantSub_eq (by unfold InRange; omega)]
    omega
  unfold openings freeRuns quantaInPeriod
  rw [if_neg (not_not.mpr hw), if_neg (not_le.mpr hdur), if_pos hw, hdays]
  exact ⟨_, rfl⟩

/-- The extended span covers the span. -/
theorem Booking.stop_le_extendedSpan (b : Booking) :
    b.extendedSpan.start = b.span.start ∧ b.span.stop ≤ b.extendedSpan.stop := by
  unfold extendedSpan
  split
  · exact ⟨rfl, le_of_lt (And.right ‹_›)⟩
  · exact ⟨rfl, le_rfl⟩

/-- A booking with its instants at or after the epoch and within reach, which begins on the
grid. -/
@[mk_iff] structure Booking.Plain (b : Booking) : Prop where
  nonneg : 0 ≤ b.span.start
  grid : OnGrid b.span.start
  reach : b.InReach

instance (b : Booking) : Decidable b.Plain := decidable_of_iff _ b.plain_iff.symm

/-- With its buffer, too, a plain booking can be read. -/
theorem Booking.Plain.readable {b : Booking} (hb : b.Plain) (hv : b.extendedSpan.Valid) :
    b.extendedSpan.Readable := by
  refine ⟨b.stop_le_extendedSpan.1 ▸ hb.nonneg, hv, ?_⟩
  obtain ⟨-, hstop, hbuf⟩ := hb.reach
  unfold extendedSpan
  split
  · rename_i hx
    refine (hbuf.resolve_left ?_).2
    rw [hx.1]
    decide
  · exact hstop.2

/-- A live booking of the calendar overlaps the span, with what the booking is taken to cover. -/
def Source.Taken (s : Source) (cal : String) (cover : Booking → Span) (w : Span) : Prop :=
  ∃ b ∈ s.liveBookings, b.calendarID = cal ∧ (cover b).Overlaps w

namespace Lifecycle

variable {l : Lifecycle} {c : Calendar} {span : Span}

theorem spanConflicts_nil_iff {exclude : String}
    (hexcl : ∀ b ∈ l.src.liveBookings, b.calendarID = c.calendarID → b.bookingID ≠ exclude)
    (hplain : ∀ b ∈ l.src.liveBookings, b.calendarID = c.calendarID → b.Plain)
    (hspan : span.Readable) : l.src.spanConflicts c.calendarID span .binding exclude = [] ∧
        l.src.spanConflicts c.calendarID span .proposed exclude = [] ↔
      ¬ l.src.Taken c.calendarID Booking.span span := by
  have hst := Span.stored_of_inReach hspan.daily.inReach.1 hspan.daily.inReach.2
  rw [spanConflicts_eq_nil_iff, spanConflicts_eq_nil_iff, hst]
  constructor
  · rintro ⟨hbind, hprop⟩ ⟨b, hb, hcal, hover⟩
    have hreach := (hplain b hb hcal).reach
    obtain ⟨hmem, hlive⟩ := mem_liveBookings.mp hb
    obtain ⟨plane, hplane⟩ := Option.isSome_iff_exists.mp hlive
    rw [← Span.stored_of_inReach hreach.1 hreach.2.1] at hover
    cases plane with
    | binding => exact hbind b hmem hcal hplane (hexcl b hb hcal) hover
    | proposed => exact hprop b hmem hcal hplane (hexcl b hb hcal) hover
  · intro hfree
    have hplane : ∀ plane, ∀ r ∈ l.src.bookings, r.calendarID = c.calendarID →
        r.state.occupiesPlane = some plane → r.bookingID ≠ exclude →
        ¬ r.span.stored.Overlaps span := by
      intro plane r hr hcal hplane _ hover
      have hlive : r ∈ l.src.liveBookings :=
        mem_liveBookings.mpr ⟨hr, Option.isSome_of_eq_some hplane⟩
      have hreach := (hplain r hlive hcal).reach
      rw [Span.stored_of_inReach hreach.1 hreach.2.1] at hover
      exact hfree ⟨r, hlive, hcal, hover⟩
    exact ⟨hplane .binding, hplane .proposed⟩

/-- The occupancy that is read for a calendar, by the bookings on a plane. -/
theorem readOccupancy_of_synced (h : l.Synced) (hc : c ∈ l.src.calendars) :
    ∃ o, l.index.readOccupancy c.calendarID = .ok o ∧ ∀ plane day,
      o.dayOn plane day = total dayContrib (l.src.liveBookingsOn c.calendarID plane) day := by
  have hcal : l.src.calendar c.calendarID = some c := l.src.uniqueCalendars.find?_of_mem hc
  have hord : l.src.ordinals c.calendarID = some c.ordinal := by
    rw [ordinals, hcal]
    rfl
  obtain ⟨-, hidx⟩ := synced_iff.mp h
  unfold IndexStore.readOccupancy
  rw [hidx]
  simp only [show (IndexStore.of l.src.ordinals _).ordinals c.calendarID = some c.ordinal from hord]
  refine ⟨_, rfl, fun plane day => ?_⟩
  rw [total_liveBookingsOn l.src hord]
  cases plane <;> exact getD_encode _

/-- The live bookings of a calendar whose index is rebuilt can be read, if they are plain. -/
theorem readable_of_synced (h : l.Synced) {b : Booking} (hb : b ∈ l.src.liveBookings)
    (hplain : b.Plain) : b.extendedSpan.Readable := by
  obtain ⟨hmem, hlive⟩ := mem_liveBookings.mp hb
  obtain ⟨plane, hplane⟩ := Option.isSome_iff_exists.mp hlive
  obtain ⟨hexp, -⟩ := synced_iff.mp h
  obtain ⟨-, days, hdays⟩ := hexp b hmem _ _ (Booking.occupancySpan_eq_some_iff.mpr ⟨rfl, hplane⟩)
  exact hplain.readable (spanDays_eq_ok_iff.mp hdays).1

/-- A quantum of the calendar is free iff no live booking has it, buffer included. -/
theorem free_iff (h : l.Synced)
    (hplain : ∀ b ∈ l.src.liveBookings, b.calendarID = c.calendarID → b.Plain) {o : Occupancy}
    (ho : ∀ plane day, o.dayOn plane day =
      total dayContrib (l.src.liveBookingsOn c.calendarID plane) day) (g : Int) :
    o.Free g ↔ ∀ b ∈ l.src.liveBookings, b.calendarID = c.calendarID →
      ¬ b.extendedSpan.Covers g := by
  have htest : ∀ plane, (o.dayOn plane (g / 288 * nsPerDay)).test (g % 288) = false ↔
      ∀ b ∈ l.src.liveBookings, b.calendarID = c.calendarID →
        b.state.occupiesPlane = some plane → ¬ b.extendedSpan.Covers g := by
    intro plane
    rw [ho, ← Bool.not_eq_true, test_total, not_exists]
    refine forall_congr' fun b => ?_
    rw [not_and, mem_liveBookingsOn, mem_liveBookings]
    constructor
    · rintro hb ⟨hmem, hlive⟩ hcal hplane
      have hread := readable_of_synced h (mem_liveBookings.mpr ⟨hmem, hlive⟩)
        (hplain b (mem_liveBookings.mpr ⟨hmem, hlive⟩) hcal)
      exact fun hg => hb ⟨hmem, hcal, hplane⟩ ((test_bitsOf hread g).mpr hg)
    · rintro hb ⟨hmem, hcal, hplane⟩ htest
      have hlive : b ∈ l.src.liveBookings :=
        mem_liveBookings.mpr ⟨hmem, Option.isSome_of_eq_some hplane⟩
      have hread := readable_of_synced h hlive (hplain b hlive hcal)
      exact hb (mem_liveBookings.mp hlive) hcal hplane ((test_bitsOf hread g).mp htest)
  unfold Occupancy.Free
  rw [htest, htest]
  constructor
  · rintro ⟨hbind, hprop⟩ b hb hcal
    obtain ⟨plane, hplane⟩ := Option.isSome_iff_exists.mp (mem_liveBookings.mp hb).2
    cases plane with
    | binding => exact hbind b hb hcal hplane
    | proposed => exact hprop b hb hcal hplane
  · intro hfree
    exact ⟨fun b hb hcal _ => hfree b hb hcal, fun b hb hcal _ => hfree b hb hcal⟩

/-- **What `Check` reports.**  The span is feasible iff no live booking overlaps it, buffer
included. -/
theorem check_feasible_iff (h : l.Synced) (hc : c ∈ l.src.calendars)
    (hplain : ∀ b ∈ l.src.liveBookings, b.calendarID = c.calendarID → b.Plain)
    (hspan : span.Readable) (hgrid : OnGrid span.start)
    (hreach : span.stop + nsPerDay ≤ lastMidnight) (mode : Mode) :
    ∃ r, l.index.check c span mode = .ok r ∧
      (r.feasible = true ↔ ¬ l.src.Taken c.calendarID Booking.extendedSpan span) := by
  obtain ⟨o, ho, hday⟩ := readOccupancy_of_synced h hc
  obtain ⟨counts, hcounts, hclear⟩ := countQuanta_eq (o := o) hspan
  have hfree : counts.Clear ↔ ¬ l.src.Taken c.calendarID Booking.extendedSpan span := by
    rw [hclear]
    simp only [free_iff h hplain hday, mem_cells]
    constructor
    · rintro hcov ⟨b, hb, hcal, hover⟩
      have hpb := hplain b hb hcal
      have hgb : OnGrid b.extendedSpan.start := b.stop_le_extendedSpan.1 ▸ hpb.grid
      obtain ⟨g, hbg, hg⟩ := (covers_common_iff hgb hgrid (readable_of_synced h hb hpb).valid
        hspan.valid).mpr hover
      exact hcov g hg b hb hcal hbg
    · intro hnot g hg b hb hcal hbg
      have hpb := hplain b hb hcal
      have hgb : OnGrid b.extendedSpan.start := b.stop_le_extendedSpan.1 ▸ hpb.grid
      exact hnot ⟨b, hb, hcal, (covers_common_iff hgb hgrid (readable_of_synced h hb hpb).valid
        hspan.valid).mp ⟨g, hbg, hg⟩⟩
  unfold IndexStore.check
  rw [if_neg (not_not.mpr (show span.Valid from hspan.valid)), ho]
  simp only [hcounts]
  split
  · rename_i hzero
    exact ⟨_, rfl, iff_of_true rfl (hfree.mp hzero)⟩
  · rename_i hzero
    -- the search for other openings returns
    obtain ⟨ops, hops⟩ := exists_openings (o := o) hspan hreach
    rw [hops]
    exact ⟨_, rfl, iff_of_false Bool.false_ne_true fun hnot => hzero (hfree.mpr hnot)⟩

/-- `Check` returns, and reports the span feasible iff `spanConflicts` finds nothing on either
plane. -/
def ChecksPlacement (l : Lifecycle) (c : Calendar) (span : Span) (mode : Mode)
    (exclude : String) : Prop :=
  ∃ r, l.index.check c span mode = .ok r ∧
    (r.feasible = true ↔ l.src.spanConflicts c.calendarID span .binding exclude = [] ∧
      l.src.spanConflicts c.calendarID span .proposed exclude = [])

/-- **Check and the conflicts of a placement.**  They agree on a span iff it does not lie in
buffers only: if a live booking of the calendar overlaps it with its buffer, one overlaps it
without. -/
theorem check_agrees_iff (l : Lifecycle) (h : l.Synced) (c : Calendar) (hc : c ∈ l.src.calendars)
    (hplain : ∀ b ∈ l.src.liveBookings, b.calendarID = c.calendarID → b.Plain) (exclude : String)
    (hexcl : ∀ b ∈ l.src.liveBookings, b.calendarID = c.calendarID → b.bookingID ≠ exclude)
    (span : Span) (hspan : span.Readable) (hgrid : OnGrid span.start)
    (hreach : span.stop + nsPerDay ≤ lastMidnight) (mode : Mode) :
    l.ChecksPlacement c span mode exclude ↔
      (l.src.Taken c.calendarID Booking.extendedSpan span →
        l.src.Taken c.calendarID Booking.span span) := by
  obtain ⟨r, hr, hfeasible⟩ := check_feasible_iff h hc hplain hspan hgrid hreach mode
  have hbuffer : l.src.Taken c.calendarID Booking.span span →
      l.src.Taken c.calendarID Booking.extendedSpan span := by
    rintro ⟨b, hb, hcal, t, ⟨hstart, hstop⟩, ht⟩
    obtain ⟨hext, hle⟩ := b.stop_le_extendedSpan
    exact ⟨b, hb, hcal, t, ⟨hext.trans_le hstart, hstop.trans_le hle⟩, ht⟩
  have hagree : l.ChecksPlacement c span mode exclude ↔
      (¬ l.src.Taken c.calendarID Booking.extendedSpan span ↔
        ¬ l.src.Taken c.calendarID Booking.span span) := by
    unfold ChecksPlacement
    rw [spanConflicts_nil_iff hexcl hplain hspan, hr]
    constructor
    · rintro ⟨_, ⟨⟩, hiff⟩
      exact hfeasible.symm.trans hiff
    · intro hiff
      exact ⟨r, rfl, hfeasible.trans hiff⟩
  rw [hagree, not_iff_not]
  exact ⟨Iff.mp, fun htaken => ⟨htaken, hbuffer⟩⟩

/-- The calendar of `oneRoom`. -/
def room : Calendar := ⟨"room", 1, .binding, .binding⟩

/-- One proposal, from nine to ten with a buffer until eleven. -/
def buffered : Lifecycle := (oneRoom.create (proposal "a" (hours 9 10) (hours 9 11).stop)).2

theorem synced_buffered : buffered.Synced :=
  synced_create_new synced_oneRoom (fun _ hr => (nomatch hr)) (by decide)

theorem liveBookings_buffered :
    buffered.src.liveBookings = [proposal "a" (hours 9 10) (hours 9 11).stop] := by
  decide +kernel

theorem check_agrees_buffered : buffered.ChecksPlacement room (hours 8 12) .exclusive "" := by
  refine (check_agrees_iff buffered synced_buffered room (by decide) ?_ "" ?_ (hours 8 12)
    ⟨by decide, by decide, by decide⟩ (by decide) (by decide) .exclusive).mpr fun _ => ?_
  · rw [liveBookings_buffered]
    decide
  · rw [liveBookings_buffered]
    decide
  · refine ⟨_, liveBookings_buffered ▸ mem_singleton_self _, rfl, ?_⟩
    rw [Span.overlaps_iff]
    decide

/-- The hour of the buffer: `Check` finds it taken, and nothing is in conflict with it. -/
theorem check_refuses_buffer : buffered.Synced ∧
      (buffered.index.check room (hours 10 11) .exclusive).toOption.map CheckResult.feasible =
        some false ∧
      buffered.src.spanConflicts "room" (hours 10 11) .binding "" = [] ∧
      buffered.src.spanConflicts "room" (hours 10 11) .proposed "" = [] := by
  refine ⟨synced_buffered, ?_, ?_, ?_⟩ <;> decide +kernel

end Lifecycle

end Xolu.Cal
