/-
# Calendars and bookings (pkg/cal/booking.go, pkg/cal/sqlitesource.go)

The booking records are the source of truth, and `Source` is the tables that hold them.  A
record keeps its instants as int64 nanoseconds and a missing buffer as NULL, so what is read
back is `Booking.stored` of what was written.  Writes go through the primary keys:
`putBooking` inserts or replaces, `setStateFrom` compares the state before it changes it.
-/
import Xolu.Cal.Codec
import Xolu.Lib.Keyed

namespace Xolu.Cal

open List Num64 Keyed

/-- A lifecycle state; `other` is any text outside the vocabulary, the empty one included. -/
inductive State where
  | proposed
  | binding
  | honoured
  | notCommitted
  | cancelled
  | missed
  | other (name : String)
deriving DecidableEq, Repr

/-- The state of a booking that gives none. -/
def State.unset : State := .other ""

/-- The plane of the index a booking occupies. -/
inductive Plane where
  | binding
  | proposed
deriving DecidableEq, Repr

def State.occupiesPlane : State → Option Plane
  | .proposed => some .proposed
  | .binding | .honoured => some .binding
  | _ => none

/-- The exclusivity of a booking; `other` is any other text. -/
inductive Mode where
  | exclusive
  | other (name : String)
deriving DecidableEq, Repr

/-- The mode of a booking that gives none. -/
def Mode.unset : Mode := .other ""

/-- The mode a booking is written with: exclusive, if it gives none. -/
def Mode.coerced (m : Mode) : Mode := if m = .unset then .exclusive else m

inductive MatchConsiders where
  | binding
  | bindingProposed
  | other (name : String)
deriving DecidableEq, Repr

/-- A calendar definition. -/
structure Calendar where
  calendarID : String
  ordinal : Nat
  defaultState : State
  matchPolicy : MatchConsiders
deriving DecidableEq, Repr

/-- A booking. -/
structure Booking where
  bookingID : String
  calendarID : String
  state : State
  span : Span
  mode : Mode
  bearer : Nat
  bufferAfter : Int
deriving DecidableEq, Repr

def validEntity (h : Nat) : Bool := decide (0 < h) && decide (h ≤ 0xFFFFFFFFFFFFFF00)

/-- `Conflict`: the booking or the transaction in the way, the region and the reason. -/
structure Conflict where
  withID : String
  overSpan : Span
  reason : String
deriving DecidableEq, Repr

/-- Why an operation of the package fails. -/
inductive CalError where
  | unknownCalendar (calendar : String)
  | unknownBooking (calendar booking : String)
  | illegalTransition (before after : State) (booking : String)
  | calendarExists (calendar : String)
  | emptyID
  | invalidSpan
  | modeNotSupported (mode : Mode)
  | bearerRequired
  /-- The driver takes no integer of 2^63 or more. -/
  | bearerRange
  /-- A move of a booking that occupies no plane. -/
  | notOccupying (state : State)
  | spanDays (e : SpanError)
  /-- The ordinal counter has left uint32. -/
  | ordinalRange
  | noMembers
  | duplicateBooking (calendar booking : String)
  /-- `BookingConflictError`. -/
  | conflict (calendar : String) (conflicts : List Conflict)
  | tenantMismatch (tenant : String)
  | noPending (txn participant : String)
deriving DecidableEq, Repr

namespace Booking

/-- The primary key of a record. -/
def key (b : Booking) : String × String := (b.calendarID, b.bookingID)

/-- The span with the buffer, if it reaches past the end. -/
def extendedSpan (b : Booking) : Span :=
  if isZero b.bufferAfter = false ∧ b.span.stop < b.bufferAfter then
    { b.span with stop := b.bufferAfter }
  else b.span

def occupancySpan (b : Booking) : Option (Span × Plane) :=
  b.state.occupiesPlane.map fun plane => (b.extendedSpan, plane)

theorem occupancySpan_eq_some_iff {b : Booking} {span : Span} {plane : Plane} :
    b.occupancySpan = some (span, plane) ↔
      b.extendedSpan = span ∧ b.state.occupiesPlane = some plane := by
  simp [occupancySpan, and_comm]

theorem occupancySpan_eq_none_iff {b : Booking} :
    b.occupancySpan = none ↔ b.state.occupiesPlane = none :=
  Option.map_eq_none_iff

end Booking

/-- The span as the table keeps it. -/
def Span.stored (s : Span) : Span := ⟨unixNano s.start, unixNano s.stop⟩

/-- The record as it is read back: int64 nanoseconds, and no buffer reads as the epoch. -/
def Booking.stored (b : Booking) : Booking :=
  { b with
    span := b.span.stored
    bufferAfter := if isZero b.bufferAfter then 0 else unixNano b.bufferAfter }

/-! ### The tables -/

/-- The tables of a tenant: primary keys on both, unique ordinals and their counter. -/
structure Source where
  calendars : List Calendar
  nextOrd : Nat
  bookings : List Booking
  uniqueCalendars : UniqueKey Calendar.calendarID calendars
  uniqueOrdinals : UniqueKey Calendar.ordinal calendars
  ordinals_le : ∀ c ∈ calendars, c.ordinal ≤ nextOrd
  uniqueBookings : UniqueKey Booking.key bookings

namespace Source

/-- The tables of a new tenant. -/
def empty : Source where
  calendars := []
  nextOrd := 0
  bookings := []
  uniqueCalendars := nodup_nil
  uniqueOrdinals := nodup_nil
  ordinals_le := by simp
  uniqueBookings := nodup_nil

section

variable (s : Source)

def calendar (id : String) : Option Calendar :=
  s.calendars.find? fun c => decide (c.calendarID = id)

def booking (cal id : String) : Option Booking :=
  s.bookings.find? fun b => decide (b.key = (cal, id))

/-- `LiveBookings`: the bookings that occupy a plane. -/
def liveBookings : List Booking := s.bookings.filter fun b => b.state.occupiesPlane.isSome

/-- `LiveBookingsOn`: those of one calendar on one plane. -/
def liveBookingsOn (cal : String) (plane : Plane) : List Booking :=
  s.bookings.filter fun b =>
    decide (b.calendarID = cal) && decide (b.state.occupiesPlane = some plane)

variable (b : Booking)

/-- A row inserted or replaced. -/
def putRow : Source :=
  { s with
    bookings := upsert Booking.key s.bookings b
    uniqueBookings := s.uniqueBookings.upsert }

/-- The row of an existing key overwritten. -/
def updateRow : Source :=
  { s with
    bookings := put Booking.key s.bookings b
    uniqueBookings := s.uniqueBookings.put }

/-- A calendar with the next ordinal. -/
def insertCalendar (c : Calendar) (hc : s.calendar c.calendarID = none) : Source where
  calendars := s.calendars ++ [{ c with ordinal := s.nextOrd + 1 }]
  nextOrd := s.nextOrd + 1
  bookings := s.bookings
  uniqueCalendars := by
    apply s.uniqueCalendars.concat
    simpa [calendar] using hc
  uniqueOrdinals := by
    apply s.uniqueOrdinals.concat
    intro c' hc'
    have := s.ordinals_le c' hc'
    show c'.ordinal ≠ s.nextOrd + 1
    omega
  ordinals_le := by
    intro c' hc'
    rcases mem_append.mp hc' with hc' | hc'
    · exact Nat.le_succ_of_le (s.ordinals_le c' hc')
    · rw [mem_singleton.mp hc']
  uniqueBookings := s.uniqueBookings

/-- `CreateCalendar`, with the defaults for what is not given. -/
def createCalendar (c : Calendar) : Except CalError (Calendar × Source) :=
  if c.calendarID = "" then .error .emptyID
  else
    let c := { c with
      ordinal := s.nextOrd + 1
      defaultState := if c.defaultState = .unset then .binding else c.defaultState
      matchPolicy := if c.matchPolicy = .other "" then .binding else c.matchPolicy }
    if hc : s.calendar c.calendarID = none then
      if 4294967296 ≤ s.nextOrd + 1 then .error .ordinalRange
      else .ok (c, s.insertCalendar c hc)
    else .error (.calendarExists c.calendarID)

/-- `validatePutBooking`: the checks of a write, and the mode it is written with. -/
def validatePutBooking : Except CalError Booking :=
  if b.bookingID = "" ∨ b.calendarID = "" then .error .emptyID
  else if ¬ b.span.Valid then .error .invalidSpan
  else if s.calendar b.calendarID = none then .error (.unknownCalendar b.calendarID)
  else if b.mode.coerced ≠ .exclusive then .error (.modeNotSupported b.mode.coerced)
  else if b.state = .binding ∧ validEntity b.bearer = false then .error .bearerRequired
  else .ok { b with mode := b.mode.coerced }

/-- `PutBooking`, and `putBookingInTx` for a transaction that commits. -/
def putBooking : Except CalError Source :=
  match s.validatePutBooking b with
  | .error e => .error e
  | .ok b => if 9223372036854775808 ≤ b.bearer then .error .bearerRange else .ok (s.putRow b.stored)

def setStateFrom (cal id : String) (before after : State) : Except CalError Source :=
  match s.booking cal id with
  | none => .error (.unknownBooking cal id)
  | some b =>
    if after = .binding ∧ validEntity b.bearer = false then .error .bearerRequired
    else if b.state ≠ before then .error (.illegalTransition before after id)
    else .ok (s.updateRow { b with state := after })

def setSpan (cal id : String) (dest : Span) : Except CalError Source :=
  if ¬ dest.Valid then .error .invalidSpan
  else
    match s.booking cal id with
    | none => .error (.unknownBooking cal id)
    | some b => .ok (s.updateRow { b with span := dest.stored })

end

/-! ### Lookups -/

variable {s : Source} {b r : Booking} {cal id : String}

theorem mem_of_booking (h : s.booking cal id = some b) :
    b ∈ s.bookings ∧ b.calendarID = cal ∧ b.bookingID = id :=
  ⟨mem_of_find?_eq_some h, by simpa [Booking.key] using find?_some h⟩

theorem mem_of_calendar {c : Calendar} (h : s.calendar id = some c) :
    c ∈ s.calendars ∧ c.calendarID = id :=
  ⟨mem_of_find?_eq_some h, by simpa using find?_some h⟩

theorem mem_liveBookings : r ∈ s.liveBookings ↔ r ∈ s.bookings ∧ r.state.occupiesPlane.isSome :=
  mem_filter

theorem mem_liveBookingsOn {plane : Plane} : r ∈ s.liveBookingsOn cal plane ↔
      r ∈ s.bookings ∧ r.calendarID = cal ∧ r.state.occupiesPlane = some plane := by
  simp [liveBookingsOn]

theorem mem_putRow : r ∈ (s.putRow b).bookings ↔ r = b ∨ r ∈ s.bookings ∧ r.key ≠ b.key :=
  mem_upsert

theorem mem_updateRow {old : Booking} (hold : old ∈ s.bookings) (hk : old.key = b.key) :
    r ∈ (s.updateRow b).bookings ↔ r = b ∨ r ∈ s.bookings ∧ r.key ≠ b.key :=
  mem_put hold hk

theorem booking_updateRow {old : Booking} (hold : old ∈ s.bookings) (hk : old.key = b.key) :
    (s.updateRow b).booking b.calendarID b.bookingID = some b :=
  find?_put_self hold hk

/-! ### What a write does -/

/-- The checks of `PutBooking`, and that the driver takes the bearer. -/
@[mk_iff] structure Accepts (s : Source) (b : Booking) : Prop where
  ids : b.bookingID ≠ "" ∧ b.calendarID ≠ ""
  span : b.span.Valid
  calendar : s.calendar b.calendarID ≠ none
  mode : b.mode.coerced = .exclusive
  bearer : b.state = .binding → validEntity b.bearer = true
  taken : b.bearer < 9223372036854775808

variable {s' : Source}

theorem putBooking_eq_ok_iff :
    s.putBooking b = .ok s' ↔ s.Accepts b ∧ s' = s.putRow { b with mode := .exclusive }.stored := by
  unfold putBooking validatePutBooking
  constructor
  · intro h
    split at h
    · cases h
    · next b' hb' =>
      split_ifs at hb' with hids hspan hcal hm hb
      cases hb'
      split_ifs at h with htaken
      cases h
      refine ⟨⟨by simpa using hids, hspan, hcal, not_not.mp hm, fun hst => ?_, not_le.mp htaken⟩,
        ?_⟩
      · simpa using not_and.mp hb hst
      · rw [not_not.mp hm]
  · rintro ⟨h, rfl⟩
    have hbearer : ¬ (b.state = .binding ∧ validEntity b.bearer = false) :=
      fun hb => absurd (h.bearer hb.1) (by rw [hb.2]; decide)
    simp only [h.mode, if_neg (not_or.mpr h.ids), if_neg (not_not.mpr h.span), if_neg h.calendar,
      if_neg (not_not.mpr rfl), if_neg hbearer, if_neg (not_le.mpr h.taken)]

theorem setStateFrom_ok {before after : State}
    (h : s.setStateFrom cal id before after = .ok s') :
    ∃ b, s.booking cal id = some b ∧ b.state = before ∧ s' = s.updateRow { b with state := after } ∧
      (after = .binding → validEntity b.bearer = true) := by
  unfold setStateFrom at h
  split at h
  · cases h
  · rename_i b hb
    split_ifs at h with hbear hst
    cases h
    exact ⟨b, hb, not_not.mp hst, rfl, fun ha => by simpa using not_and.mp hbear ha⟩

theorem setSpan_ok {dest : Span} (h : s.setSpan cal id dest = .ok s') :
    ∃ b, s.booking cal id = some b ∧ dest.Valid ∧
      s' = s.updateRow { b with span := dest.stored } := by
  unfold setSpan at h
  split_ifs at h with hv
  split at h
  · cases h
  · cases h
    exact ⟨_, ‹_›, hv, rfl⟩

end Source

end Xolu.Cal
