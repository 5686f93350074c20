/-
# The occupancy index (pkg/cal/store.go, pkg/cal/lifecycle.go)

The index keeps one bitmap per calendar, plane and day, under the calendar's ordinal; a day
without occupancy has no key.  `applyBooking` joins a booking's days in, `removeFromPlane`
recomputes the days of a booking from the records that are left, and `rebuildFrom` computes
everything from the records.

`contrib` is what one booking puts into the index.  The index of a list of records is the
join of their contributions (`IndexStore.of` and `total`); the three operations are described
in these terms by `addToPlane_of`, `removeFromPlane_of` and `rebuildFrom_eq_ok_iff`.
-/
import Xolu.Cal.Booking
import Xolu.Lib.Derived

namespace Xolu.Cal

open List Keyed Derived DayOccupancy Source

/-- The key of a day: calendar ordinal, plane and first nanosecond. -/
@[ext] structure Key where
  ord : Nat
  plane : Plane
  dayNanos : Int
deriving DecidableEq, Repr

/-- `IndexStore`: the ordinals by calendar and the stored days. -/
@[ext] structure IndexStore where
  ordinals : String → Option Nat
  days : Key → Option DayBitmap

/-- What is stored for a bitmap: an empty day is deleted. -/
def DayBitmap.encode (bm : DayBitmap) : Option DayBitmap := if bm.isZero then none else some bm

/-- The bits of the first bitmap that the second does not have. -/
def DayBitmap.without (a b : DayBitmap) : DayBitmap := ⟨a.bits &&& ~~~b.bits⟩

/-- Days joined into an accumulator. -/
def orDays {κ : Type} [DecidableEq κ] (key : Int → κ) (days : List DayOccupancy)
    (acc : κ → DayBitmap) : κ → DayBitmap :=
  days.foldl (fun acc d => Function.update acc (key d.dayNanos) (acc (key d.dayNanos) ⊔ d.bits)) acc

/-- The ordinal map as it is made from the calendar records. -/
def Source.ordinals (s : Source) (id : String) : Option Nat := (s.calendar id).map Calendar.ordinal

namespace IndexStore

variable (x : IndexStore)

/-- `dayValue`: a missing key is the empty day. -/
def dayValue (k : Key) : DayBitmap := (x.days k).getD ⊥

/-- A committed batch of days. -/
def writeAll {ι : Type} (x : IndexStore) (l : List ι) (key : ι → Key) (val : ι → DayBitmap) :
    IndexStore :=
  { x with days := batch l key (fun i => (val i).encode) x.days }

def registerCalendar (c : Calendar) : IndexStore :=
  { x with ordinals := Function.update x.ordinals c.calendarID (some c.ordinal) }

/-- `applyBooking`.  The days are read before any of them is written. -/
def applyBooking (b : Booking) (add : Bool) : Except CalError IndexStore :=
  match b.occupancySpan with
  | none => .ok x
  | some (span, plane) =>
    match x.ordinals b.calendarID with
    | none => .error (.unknownCalendar b.calendarID)
    | some ord =>
      match spanDays span with
      | .error e => .error (.spanDays e)
      | .ok days =>
        .ok (x.writeAll days (fun d => ⟨ord, plane, d.dayNanos⟩) fun d =>
          if add then x.dayValue ⟨ord, plane, d.dayNanos⟩ ⊔ d.bits
          else (x.dayValue ⟨ord, plane, d.dayNanos⟩).without d.bits)

def addToPlane (b : Booking) : Except CalError IndexStore := x.applyBooking b true

/-- The loop of `recomputeDays` over the live bookings; days outside the scope are skipped. -/
def recomputeLoop (plane : Plane) (scope : List Int) :
    List Booking → (Int → DayBitmap) → Except CalError (Int → DayBitmap)
  | [], acc => .ok acc
  | b :: live, acc =>
    match b.occupancySpan with
    | none => recomputeLoop plane scope live acc
    | some (span, p) =>
      if p ≠ plane then recomputeLoop plane scope live acc
      else
        match spanDays span with
        | .error e => .error (.spanDays e)
        | .ok days =>
          recomputeLoop plane scope live
            (orDays id (days.filter fun d => decide (d.dayNanos ∈ scope)) acc)

def recomputeDays (ord : Nat) (plane : Plane) (scope : List Int)
    (live : List Booking) : Except CalError IndexStore :=
  match recomputeLoop plane scope live fun _ => ⊥ with
  | .error e => .error e
  | .ok acc => .ok (x.writeAll scope (fun day => ⟨ord, plane, day⟩) acc)

def removeFromPlane (src : Source) (b : Booking) (plane : Plane) : Except CalError IndexStore :=
  match x.ordinals b.calendarID with
  | none => .error (.unknownCalendar b.calendarID)
  | some ord =>
    match spanDays b.extendedSpan with
    | .error e => .error (.spanDays e)
    | .ok days =>
      x.recomputeDays ord plane (days.map dayNanos) (src.liveBookingsOn b.calendarID plane)

/-- The loop of `RebuildFrom` over the live bookings. -/
def rebuildLoop (ords : String → Option Nat) :
    List Booking → (Key → DayBitmap) → Except CalError (Key → DayBitmap)
  | [], acc => .ok acc
  | b :: live, acc =>
    match b.occupancySpan with
    | none => rebuildLoop ords live acc
    | some (span, plane) =>
      match ords b.calendarID with
      | none => .error (.unknownCalendar b.calendarID)
      | some ord =>
        match spanDays span with
        | .error e => .error (.spanDays e)
        | .ok days => rebuildLoop ords live (orDays (fun day => ⟨ord, plane, day⟩) days acc)

def rebuildFrom (src : Source) : Except CalError IndexStore :=
  match rebuildLoop src.ordinals src.liveBookings fun _ => ⊥ with
  | .error e => .error e
  | .ok acc => .ok ⟨src.ordinals, fun k => (acc k).encode⟩

end IndexStore

/-! ### Contributions -/

/-- What a day puts under its key. -/
def DayOccupancy.under {κ : Type} [DecidableEq κ] (key : Int → κ) (d : DayOccupancy) (k : κ) :
    DayBitmap :=
  if key d.dayNanos = k then d.bits else ⊥

/-- The bits some days have for one of them. -/
def bitsAt (days : List DayOccupancy) (day : Int) : DayBitmap := total (under id) days day

/-- The bits of a span on a day. -/
def bitsOf (span : Span) (day : Int) : DayBitmap :=
  match spanDays span with
  | .ok days => bitsAt days day
  | .error _ => ⊥

section

variable (ords : String → Option Nat)

/-- What a booking puts into the index. -/
def contrib (b : Booking) (k : Key) : DayBitmap :=
  match b.occupancySpan with
  | none => ⊥
  | some (span, plane) =>
    if ords b.calendarID = some k.ord ∧ plane = k.plane then bitsOf span k.dayNanos else ⊥

/-- If the booking occupies a plane, its calendar is known and its span has days. -/
def Expands (b : Booking) : Prop :=
  ∀ span plane, b.occupancySpan = some (span, plane) →
    (∃ ord, ords b.calendarID = some ord) ∧ ∃ days, spanDays span = .ok days

/-- The index that stores these bits. -/
def IndexStore.of (f : Key → DayBitmap) : IndexStore := ⟨ords, fun k => (f k).encode⟩

end

variable {ords : String → Option Nat} {f : Key → DayBitmap} {b : Booking} {span : Span}
  {plane : Plane} {days : List DayOccupancy}

@[simp] theorem getD_encode (bm : DayBitmap) : bm.encode.getD ⊥ = bm := by
  unfold DayBitmap.encode DayBitmap.isZero
  split
  · rename_i h
    exact (of_decide_eq_true h).symm
  · rfl

theorem encode_injective {a b : DayBitmap} (h : a.encode = b.encode) : a = b := by
  rw [← getD_encode a, h, getD_encode]

@[simp] theorem dayValue_of (k : Key) : (IndexStore.of ords f).dayValue k = f k := getD_encode _

variable {g : Key → DayBitmap}

/-- Different bits are stored differently. -/
theorem of_eq_of_iff : IndexStore.of ords f = IndexStore.of ords g ↔ ∀ k, f k = g k := by
  constructor
  · intro h k
    exact encode_injective (congrFun (congrArg IndexStore.days h) k)
  · intro h
    rw [funext h]

theorem bitsOf_ok (h : spanDays span = .ok days) (day : Int) :
    bitsOf span day = bitsAt days day := by
  rw [bitsOf, h]

theorem bitsAt_of_mem (hnd : (days.map dayNanos).Nodup) {d : DayOccupancy}
    (hd : d ∈ days) : bitsAt days d.dayNanos = d.bits := by
  apply le_antisymm
  · refine total_le_iff.mpr fun d' hd' => ?_
    unfold under
    split
    · rw [inj_on_of_nodup_map hnd hd' hd ‹_›]
    · exact bot_le
  · calc d.bits = d.under id d.dayNanos := (if_pos rfl).symm
      _ ≤ bitsAt days d.dayNanos := le_total_of_mem hd

theorem bitsAt_of_not_mem {day : Int} (h : day ∉ days.map dayNanos) : bitsAt days day = ⊥ :=
  total_eq_bot fun d hd => if_neg fun e => h (mem_map.mpr ⟨d, hd, e⟩)

/-- The days of one calendar and plane. -/
theorem total_under_key (ord : Nat) (plane : Plane) (days : List DayOccupancy) (k : Key) :
    total (under (Key.mk ord plane)) days k =
      if ord = k.ord ∧ plane = k.plane then bitsAt days k.dayNanos else ⊥ := by
  split
  · rename_i hk
    refine total_congr fun d _ => ?_
    simp [under, Key.ext_iff, hk]
  · rename_i hk
    refine total_eq_bot fun d _ => if_neg ?_
    rintro rfl
    exact hk ⟨rfl, rfl⟩

theorem contrib_of_none (h : b.occupancySpan = none) (k : Key) : contrib ords b k = ⊥ := by
  rw [contrib, h]

theorem contrib_of_some (h : b.occupancySpan = some (span, plane)) (k : Key) : contrib ords b k =
      if ords b.calendarID = some k.ord ∧ plane = k.plane then bitsOf span k.dayNanos else ⊥ := by
  rw [contrib, h]

/-- Days joined in one after the other are the join of the days. -/
theorem orDays_apply {κ : Type} [DecidableEq κ] (key : Int → κ) (days : List DayOccupancy)
    (acc : κ → DayBitmap) (k : κ) : orDays key days acc k = acc k ⊔ total (under key) days k := by
  induction days generalizing acc with
  | nil => simp [orDays]
  | cons d days ih =>
    rw [total_cons, ← sup_assoc]
    refine (ih _).trans (congrArg (· ⊔ _) ?_)
    dsimp only [under]
    by_cases hk : key d.dayNanos = k
    · subst hk
      rw [Function.update_self, if_pos rfl]
    · rw [Function.update_of_ne (Ne.symm hk), if_neg hk, sup_bot_eq]

/-- A batch that writes no key twice changes the bits at its keys. -/
theorem writeAll_of {ι : Type} {l : List ι} {key : ι → Key} {val : ι → DayBitmap}
    (hl : (l.map key).Nodup) (hin : ∀ i ∈ l, g (key i) = val i)
    (hout : ∀ k, (∀ i ∈ l, key i ≠ k) → g k = f k) :
    (IndexStore.of ords f).writeAll l key val = IndexStore.of ords g := by
  refine IndexStore.ext rfl (funext fun k => ?_)
  by_cases hk : ∃ i ∈ l, key i = k
  · obtain ⟨i, hi, rfl⟩ := hk
    exact (batch_of_mem hl hi).trans (congrArg DayBitmap.encode (hin i hi).symm)
  · have hne : ∀ i ∈ l, key i ≠ k := fun i hi e => hk ⟨i, hi, e⟩
    exact (batch_of_ne hne).trans (congrArg DayBitmap.encode (hout k hne).symm)

/-- Keys of one calendar and plane differ if their days do. -/
theorem nodup_map_key {ι : Type} {l : List ι} {day : ι → Int} (ord : Nat) (plane : Plane)
    (hl : (l.map day).Nodup) : (l.map fun i => (⟨ord, plane, day i⟩ : Key)).Nodup := by
  have hmap : (l.map fun i => (⟨ord, plane, day i⟩ : Key)) = (l.map day).map (Key.mk ord plane) :=
    map_map.symm
  rw [hmap]
  exact hl.map fun _ _ h => (Key.mk.injEq .. ▸ h).2.2

/-! ### Adding a booking -/

/-- Adding a booking joins its contribution in. -/
theorem addToPlane_of (h : Expands ords b) : (IndexStore.of ords f).addToPlane b =
      .ok (IndexStore.of ords fun k => f k ⊔ contrib ords b k) := by
  unfold IndexStore.addToPlane IndexStore.applyBooking
  rcases hocc : b.occupancySpan with - | ⟨span, plane⟩
  · simp only [contrib_of_none hocc, sup_bot_eq]
  obtain ⟨⟨ord, hord⟩, days, hdays⟩ := h span plane hocc
  have hnd := nodup_spanDays hdays
  simp only [show (IndexStore.of ords f).ordinals b.calendarID = some ord from hord, hdays,
    if_true, dayValue_of]
  refine congrArg Except.ok (writeAll_of (nodup_map_key ord plane hnd) ?_ ?_)
  · intro d hd
    rw [contrib_of_some hocc, if_pos ⟨hord, rfl⟩, bitsOf_ok hdays, bitsAt_of_mem hnd hd]
  · intro k hk
    rw [contrib_of_some hocc]
    split
    · rename_i hkey
      rw [bitsOf_ok hdays, bitsAt_of_not_mem, sup_bot_eq]
      intro hmem
      obtain ⟨d, hd, hday⟩ := mem_map.mp hmem
      refine hk d hd ?_
      rw [hday, Option.some.inj (hord.symm.trans hkey.1), hkey.2]
    · rw [sup_bot_eq]

/-- A booking that does not expand is not added and contributes nothing. -/
theorem addToPlane_error (h : ¬ Expands ords b) :
    (∃ e, (IndexStore.of ords f).addToPlane b = .error e) ∧ ∀ k, contrib ords b k = ⊥ := by
  unfold Expands at h
  push Not at h
  obtain ⟨span, plane, hocc, h⟩ := h
  unfold IndexStore.addToPlane IndexStore.applyBooking
  simp only [hocc, contrib_of_some hocc, IndexStore.of]
  rcases hord : ords b.calendarID with - | ord
  · exact ⟨⟨_, rfl⟩, fun k => if_neg fun hk => nomatch hk.1⟩
  · have hdays := h ⟨ord, hord⟩
    rcases hsp : spanDays span with e | days
    · refine ⟨⟨_, rfl⟩, fun k => ?_⟩
      simp only [bitsOf, hsp, ite_self]
    · exact absurd hsp (hdays days)

/-! ### Rebuilding -/

/-- The loop succeeds iff every booking expands, and joins in what they contribute. -/
theorem rebuildLoop_eq_ok_iff {live : List Booking} {acc acc' : Key → DayBitmap} :
    IndexStore.rebuildLoop ords live acc = .ok acc' ↔
      (∀ b ∈ live, Expands ords b) ∧ (fun k => acc k ⊔ total (contrib ords) live k) = acc' := by
  induction live generalizing acc with
  | nil => simp [IndexStore.rebuildLoop]
  | cons b live ih =>
    rw [forall_mem_cons, Expands]
    unfold IndexStore.rebuildLoop
    rcases hocc : b.occupancySpan with - | ⟨span, plane⟩
    · simp [ih, total_cons, contrib_of_none hocc]
    rcases hord : ords b.calendarID with - | ord
    · simp
    rcases hdays : spanDays span with e | days
    · simp [hdays]
    have hacc : ∀ k, orDays (Key.mk ord plane) days acc k = acc k ⊔ contrib ords b k := by
      intro k
      simp only [orDays_apply, total_under_key, contrib_of_some hocc, bitsOf_ok hdays, hord,
        Option.some_inj]
    simp [ih, hacc, hdays, total_cons, sup_assoc]

/-- Bookings that occupy no plane expand and contribute nothing. -/
theorem total_liveBookings (s : Source) (k : Key) :
    total (contrib ords) s.bookings k = total (contrib ords) s.liveBookings k := by
  refine total_eq_of_subset (fun r hr => (mem_liveBookings.mp hr).1) fun r hr hlive => ?_
  rw [mem_liveBookings, not_and, Option.not_isSome_iff_eq_none] at hlive
  exact contrib_of_none (Booking.occupancySpan_eq_none_iff.mpr (hlive hr)) k

variable {s : Source}

/-- **The rebuild.**  It succeeds iff every record expands, and stores the join of what the
records contribute. -/
theorem rebuildFrom_eq_ok_iff {x : IndexStore} : IndexStore.rebuildFrom s = .ok x ↔
      (∀ r ∈ s.bookings, Expands s.ordinals r) ∧
        x = IndexStore.of s.ordinals (total (contrib s.ordinals) s.bookings) := by
  have hexp : (∀ r ∈ s.bookings, Expands s.ordinals r) ↔
      ∀ r ∈ s.liveBookings, Expands s.ordinals r := by
    refine ⟨fun h r hr => h r (mem_liveBookings.mp hr).1, fun h r hr span plane hocc => ?_⟩
    refine h r (mem_liveBookings.mpr ⟨hr, ?_⟩) span plane hocc
    exact Option.isSome_of_eq_some (Booking.occupancySpan_eq_some_iff.mp hocc).2
  have hacc : total (contrib s.ordinals) s.bookings =
      fun k => ⊥ ⊔ total (contrib s.ordinals) s.liveBookings k :=
    funext fun k => (total_liveBookings s k).trans (bot_sup_eq _).symm
  rw [hexp, hacc]
  unfold IndexStore.rebuildFrom
  rcases hloop : IndexStore.rebuildLoop s.ordinals s.liveBookings fun _ => ⊥ with e | acc
  · refine iff_of_false nofun fun h => ?_
    cases hloop.symm.trans (rebuildLoop_eq_ok_iff.mpr ⟨h.1, rfl⟩)
  · obtain ⟨h, rfl⟩ := rebuildLoop_eq_ok_iff.mp hloop
    rw [and_iff_right h, Except.ok.injEq, eq_comm]
    rfl

/-! ### Removing a booking -/

variable {ord : Nat}

/-- Different calendars have different ordinals. -/
theorem Source.ordinals_injective {id id' : String}
    (h : s.ordinals id = some ord) (h' : s.ordinals id' = some ord) : id = id' := by
  obtain ⟨c, hc, hord⟩ := Option.map_eq_some_iff.mp h
  obtain ⟨c', hc', hord'⟩ := Option.map_eq_some_iff.mp h'
  obtain ⟨hmem, rfl⟩ := mem_of_calendar hc
  obtain ⟨hmem', rfl⟩ := mem_of_calendar hc'
  rw [s.uniqueOrdinals.eq_of_key hmem hmem' (hord.trans hord'.symm)]

/-- What a booking on the plane adds to a day of the scope. -/
def dayContrib (b : Booking) (day : Int) : DayBitmap := bitsOf b.extendedSpan day

theorem recomputeLoop_of (plane : Plane) (scope : List Int) (live : List Booking)
    (hplane : ∀ b ∈ live, b.state.occupiesPlane = some plane) (h : ∀ b ∈ live, Expands ords b)
    (acc : Int → DayBitmap) : ∃ acc', IndexStore.recomputeLoop plane scope live acc = .ok acc' ∧
      ∀ day ∈ scope, acc' day = acc day ⊔ total dayContrib live day := by
  induction live generalizing acc with
  | nil => exact ⟨acc, rfl, by simp⟩
  | cons b live ih =>
    rw [forall_mem_cons] at h hplane
    have hocc := Booking.occupancySpan_eq_some_iff.mpr ⟨rfl, hplane.1⟩
    obtain ⟨-, days, hdays⟩ := h.1 _ _ hocc
    obtain ⟨acc', hacc', hday⟩ := ih hplane.2 h.2
      (orDays id (days.filter fun d => decide (d.dayNanos ∈ scope)) acc)
    refine ⟨acc', ?_, fun day hscope => ?_⟩
    · unfold IndexStore.recomputeLoop
      simpa only [hocc, hdays, ne_eq, not_true_eq_false, if_false] using hacc'
    · rw [hday day hscope, orDays_apply, total_cons, ← sup_assoc, dayContrib, bitsOf_ok hdays]
      refine congrArg (acc day ⊔ · ⊔ _) (Eq.symm ?_)
      -- the days that are skipped are other days
      refine total_eq_of_subset (fun d hd => (mem_filter.mp hd).1) fun d hd hskip => if_neg ?_
      rintro rfl
      exact hskip (mem_filter.mpr ⟨hd, decide_eq_true hscope⟩)

/-- The keys that `removeFromPlane` recomputes. -/
def InScope (ord : Nat) (plane : Plane) (days : List DayOccupancy) (k : Key) : Prop :=
  k.ord = ord ∧ k.plane = plane ∧ k.dayNanos ∈ days.map dayNanos
deriving Decidable

/-- Within the scope the live bookings of the calendar on the plane are all that count. -/
theorem total_liveBookingsOn (s : Source) {cal : String} (hord : s.ordinals cal = some ord)
    (plane : Plane) (day : Int) : total dayContrib (s.liveBookingsOn cal plane) day =
      total (contrib s.ordinals) s.bookings ⟨ord, plane, day⟩ := by
  have hlive : ∀ r ∈ s.liveBookingsOn cal plane,
      contrib s.ordinals r ⟨ord, plane, day⟩ = dayContrib r day := by
    intro r hr
    obtain ⟨-, rfl, hplane⟩ := mem_liveBookingsOn.mp hr
    rw [contrib_of_some (Booking.occupancySpan_eq_some_iff.mpr ⟨rfl, hplane⟩), if_pos ⟨hord, rfl⟩]
    rfl
  rw [← total_congr hlive]
  refine (total_eq_of_subset (fun r hr => (mem_liveBookingsOn.mp hr).1) ?_).symm
  intro r hr hnot
  rw [contrib]
  split
  · rfl
  · rename_i span p hocc
    refine if_neg ?_
    rintro ⟨hr', rfl⟩
    obtain ⟨-, hplane⟩ := Booking.occupancySpan_eq_some_iff.mp hocc
    exact hnot (mem_liveBookingsOn.mpr ⟨hr, ordinals_injective hr' hord, hplane⟩)

/-- Removing a booking recomputes the days of its span from the records. -/
theorem removeFromPlane_of (plane : Plane) (hord : s.ordinals b.calendarID = some ord)
    (hdays : spanDays b.extendedSpan = .ok days) (h : ∀ r ∈ s.bookings, Expands s.ordinals r) :
    (IndexStore.of s.ordinals f).removeFromPlane s b plane =
      .ok (IndexStore.of s.ordinals fun k =>
        if InScope ord plane days k then total (contrib s.ordinals) s.bookings k else f k) := by
  unfold IndexStore.removeFromPlane IndexStore.recomputeDays
  obtain ⟨acc, hacc, hday⟩ := recomputeLoop_of plane (days.map dayNanos)
    (s.liveBookingsOn b.calendarID plane)
    (fun r hr => (mem_liveBookingsOn.mp hr).2.2)
    (fun r hr => h r (mem_liveBookingsOn.mp hr).1) fun _ => ⊥
  simp only [show (IndexStore.of s.ordinals f).ordinals b.calendarID = some ord from hord, hdays,
    hacc]
  have hnd : ((days.map dayNanos).map id).Nodup := by
    rw [map_id]
    exact nodup_spanDays hdays
  refine congrArg Except.ok (writeAll_of (nodup_map_key ord plane hnd) ?_ ?_)
  · intro day hmem
    rw [if_pos ⟨rfl, rfl, hmem⟩, hday day hmem, bot_sup_eq, total_liveBookingsOn s hord]
  · intro k hk
    refine if_neg ?_
    rintro ⟨rfl, rfl, hmem⟩
    exact hk _ hmem rfl

end Xolu.Cal
