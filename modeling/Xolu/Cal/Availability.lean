/-
# Availability and openings (pkg/cal/availability.go)

A read goes over a period quantum by quantum.  `quantaInPeriod` cuts the period at midnights
into segments of quanta, `countQuanta` counts what is taken in them, and `freeRuns` collects
the runs of free quanta, clipped to the period; `openings` keeps the runs that are long enough
and orders them.

Days and quanta are numbered through from the epoch on: quantum `g` is quantum `g % 288` of
day `g / 288`.  Up to the last midnight of int64 nanoseconds the nested loops go over the
quanta of the period one by one (`foldl_quantaInPeriod`), and what they find is put in terms of
`Free`.  After it the loop over days wraps around and comes back at other times of day.
-/
import Xolu.Cal.Index
import Xolu.Lib.Stretch

namespace Xolu.Cal

open List Num64 Stretch

/-- How a read fails. -/
inductive ReadError where
  | invalidPeriod
  /-- The window does not begin before it ends. -/
  | notBefore
  /-- The duration is not positive. -/
  | duration
  | unknownObjective (name : String)
  | unknownCalendar (calendar : String)
  | noCalendars
  /-- The loop over the days does not end. -/
  | endless
deriving DecidableEq, Repr

/-- `Occupancy`: the days of a calendar with occupancy, on each plane. -/
structure Occupancy where
  binding : Int → Option DayBitmap
  proposed : Int → Option DayBitmap

/-- `NewOccupancy`. -/
def Occupancy.empty : Occupancy := ⟨fun _ => none, fun _ => none⟩

def Occupancy.planeMap (o : Occupancy) : Plane → Int → Option DayBitmap
  | .proposed => o.proposed
  | .binding => o.binding

/-- `dayOn`: a missing day is the empty one. -/
def Occupancy.dayOn (o : Occupancy) (plane : Plane) (dayNanos : Int) : DayBitmap :=
  (o.planeMap plane dayNanos).getD ⊥

/-! ### The quanta of a period -/

/-- The quanta of one day that a period covers. -/
structure Segment where
  dayNanos : Int
  loQ : Int
  hiQ : Int
deriving DecidableEq, Repr

/-- One round of `quantaInPeriod`. -/
def segment (startN endN dayStart : Int) : Segment :=
  let dayEnd := wrap (dayStart + nsPerDay)
  let loN := if startN < dayStart then dayStart else startN
  let hiN := if dayEnd < endN then dayEnd else endN
  let hiQ := (wrap (hiN - dayStart + nsPerQuantum - 1)).tdiv nsPerQuantum
  { dayNanos := dayStart
    loQ := (wrap (loN - dayStart)).tdiv nsPerQuantum
    hiQ := if quantaPerDay < hiQ then quantaPerDay else hiQ }

/-- `quantaInPeriod`; a `Period` has the two instants of a `Span`. -/
def quantaInPeriod (p : Span) : Option (List Segment) :=
  p.days.map fun days => days.map (segment (unixNano p.start) (unixNano p.stop))

/-- A loop over the quanta of the segments. -/
def foldQuanta {σ : Type} (f : σ → Int → Int → σ) (s : σ) (segs : List Segment) : σ :=
  segs.foldl (fun s seg => (cells seg.loQ seg.hiQ).foldl (fun s q => f s seg.dayNanos q) s) s

/-! ### Counts -/

structure Counts where
  binding : Nat
  proposed : Nat
  free : Nat
deriving DecidableEq, Repr

/-- Nothing has been counted as taken. -/
def Counts.Clear (c : Counts) : Prop := c.binding = 0 ∧ c.proposed = 0

namespace Occupancy

variable (o : Occupancy)

/-- One quantum counted: binding dominates. -/
def countQuantum (c : Counts) (dayNanos q : Int) : Counts :=
  if (o.dayOn .binding dayNanos).test q then { c with binding := c.binding + 1 }
  else if (o.dayOn .proposed dayNanos).test q then { c with proposed := c.proposed + 1 }
  else { c with free := c.free + 1 }

def countQuanta (p : Span) : Except ReadError Counts :=
  if p.Valid then
    match quantaInPeriod p with
    | none => .error .endless
    | some segs => .ok (foldQuanta o.countQuantum ⟨0, 0, 0⟩ segs)
  else .error .invalidPeriod

def isFree (p : Span) : Except ReadError Bool :=
  match o.countQuanta p with
  | .error e => .error e
  | .ok c => .ok (decide (c.binding = 0) && decide (c.proposed = 0))

end Occupancy

/-! ### Openings -/

structure Opening where
  start : Int
  stop : Int
  margin : Int
deriving DecidableEq, Repr

/-- The span of an opening. -/
def Opening.span (r : Opening) : Span := ⟨r.start, r.stop⟩

/-- `Instant.Sub`: the duration, or the largest one there is. -/
def instantSub (a b : Int) : Int :=
  if 9223372036854775807 < a - b then 9223372036854775807
  else if a - b < -9223372036854775808 then -9223372036854775808
  else a - b

/-- The variables of the loop of `freeRuns`; a negative `runStartNanos` is no open run. -/
structure RunScan where
  runStartNanos : Int
  runs : List Opening

def RunScan.flush (s : RunScan) (endNanos : Int) : RunScan :=
  if 0 ≤ s.runStartNanos then
    ⟨-1, s.runs ++ [⟨s.runStartNanos, endNanos, wrap (endNanos - s.runStartNanos)⟩]⟩
  else s

/-- A run clipped to the window. -/
def Opening.clip (fromN toN : Int) (r : Opening) : Opening :=
  let start := if unixNano r.start < fromN then fromN else r.start
  let stop := if toN < unixNano r.stop then toN else r.stop
  ⟨start, stop, instantSub stop start⟩

/-- `Objective`; `other` is any other text. -/
inductive Objective where
  | earliest
  | firstFit
  | emptiest
  | longestClr
  | other (name : String)
deriving DecidableEq, Repr

/-- An objective of the fixed list, or none. -/
def Objective.Known : Objective → Prop
  | .other name => name = ""
  | _ => True

/-- `sort.Slice`; elements that tie, which it may leave in any order, keep theirs. -/
def sortSlice {α : Type} (less : α → α → Bool) (l : List α) : List α :=
  l.mergeSort fun a b => !less b a

/-- The order of the chronological objectives. -/
def earlier (a b : Opening) : Bool := decide (a.start < b.start)

/-- The order of the objectives that rank by margin: the most margin first. -/
def roomier (a b : Opening) : Bool :=
  if a.margin ≠ b.margin then decide (b.margin < a.margin) else decide (a.start < b.start)

namespace Occupancy

variable (o : Occupancy)

/-- One quantum of the loop of `freeRuns`. -/
def scanQuantum (s : RunScan) (dayNanos q : Int) : RunScan :=
  let qStartNanos := wrap (dayNanos + q * nsPerQuantum)
  if (o.dayOn .binding dayNanos).test q = false ∧ (o.dayOn .proposed dayNanos).test q = false then
    if s.runStartNanos < 0 then { s with runStartNanos := qStartNanos } else s
  else s.flush qStartNanos

def freeRuns (w : Span) : Except ReadError (List Opening) :=
  if w.Valid then
    match quantaInPeriod w with
    | none => .error .endless
    | some segs =>
      let s := (foldQuanta o.scanQuantum ⟨-1, []⟩ segs).flush (unixNano w.stop)
      .ok (s.runs.map (Opening.clip (unixNano w.start) (unixNano w.stop)))
  else .ok []

def openings (w : Span) (duration : Int) (obj : Objective) : Except ReadError (List Opening) :=
  if ¬ w.Valid then .error .notBefore
  else if duration ≤ 0 then .error .duration
  else
    match o.freeRuns w with
    | .error e => .error e
    | .ok runs =>
      let fit := runs.filter fun r => decide (duration ≤ instantSub r.stop r.start)
      match obj with
      | .earliest | .other "" => .ok (sortSlice earlier fit)
      | .firstFit => .ok ((sortSlice earlier fit).take 1)
      | .emptiest | .longestClr => .ok (sortSlice roomier fit)
      | .other name => .error (.unknownObjective name)

end Occupancy

/-! ### Periods up to the last midnight -/

/-- The number of the first quantum that begins at or after the instant. -/
def quantumAfter (t : Int) : Int := (t + nsPerQuantum - 1) / nsPerQuantum

/-- A period at or after the epoch that ends at the last midnight or before. -/
structure Span.Readable (p : Span) : Prop where
  nonneg : 0 ≤ p.start
  valid : p.start < p.stop
  reach : p.stop ≤ lastMidnight

/-- The span begins on the day that the loop begins with, and ends within reach. -/
structure Span.Daily (p : Span) : Prop where
  valid : p.Valid
  first : 0 ≤ p.start ∨ -lastMidnight ≤ p.start ∧ nsPerDay ∣ p.start
  reach : p.stop ≤ lastMidnight

theorem Span.Readable.daily {p : Span} (hp : p.Readable) : p.Daily :=
  ⟨hp.valid, .inl hp.nonneg, hp.reach⟩

section

variable {p : Span} (hp : p.Daily)
include hp

theorem Span.Daily.inReach : InReach p.start ∧ InReach p.stop := by
  obtain ⟨hvalid, hfirst, hreach⟩ := hp
  have hlast : lastMidnight = 9223286400000000000 := rfl
  unfold Valid at hvalid
  unfold InReach
  omega

theorem Span.Daily.days_eq :
    p.days = some ((cells (p.start / nsPerDay) (dayAfter p.stop)).map (· * nsPerDay)) := by
  have hdiv : p.start.tdiv nsPerDay = p.start / nsPerDay := by
    rcases hp.first with h | ⟨-, h⟩
    · exact Int.tdiv_eq_ediv_of_nonneg h
    · exact Int.tdiv_eq_ediv_of_dvd h
  rw [Span.days_of_inReach hp.valid hp.inReach.1 hp.inReach.2, hdiv]

end

theorem Span.Readable.le_quantumAfter {p : Span} (h : p.Readable) :
    p.start / nsPerQuantum ≤ quantumAfter p.stop := by
  have := h.valid
  unfold quantumAfter nsPerQuantum
  omega

/-- The quanta of a window that can be read. -/
theorem Span.Readable.quanta {w : Span} (hw : w.Readable) : 0 ≤ w.start / nsPerQuantum ∧
    (quantumAfter w.stop - 1) * nsPerQuantum ≤ lastMidnight ∧
    w.stop ≤ quantumAfter w.stop * nsPerQuantum := by
  obtain ⟨hstart, -, hstop⟩ := hw
  unfold quantumAfter nsPerQuantum
  omega

variable {startN endN : Int} {day : Int}

/-- The segment of a day that the period touches, in terms of the numbers of the quanta. -/
theorem segment_midnight (hday : -106751 ≤ day) (hlt : day * nsPerDay < endN)
    (hend : endN ≤ lastMidnight) (hnext : startN < (day + 1) * nsPerDay) :
    segment startN endN (day * nsPerDay) =
      ⟨day * nsPerDay, max 0 (startN / nsPerQuantum - 288 * day),
        min 288 (quantumAfter endN - 288 * day)⟩ := by
  unfold lastMidnight at hend
  unfold nsPerDay at *
  have hwrap : wrap (day * 86400000000000 + 86400000000000) =
      day * 86400000000000 + 86400000000000 :=
    wrap_of_inRange (by unfold InRange; omega)
  unfold segment quantumAfter
  simp only [nsPerDay, nsPerQuantum, quantaPerDay, hwrap]
  congr 1
  · rw [wrap_of_inRange (by unfold InRange; split <;> omega),
      Int.tdiv_eq_ediv_of_nonneg (by split <;> omega)]
    split <;> omega
  · rw [wrap_of_inRange (by unfold InRange; split <;> omega),
      Int.tdiv_eq_ediv_of_nonneg (by split <;> omega)]
    split <;> split <;> omega

/-- The quanta of a day by their numbers. -/
theorem foldl_cells_day {σ : Type} (f : σ → Int → Int → σ) (s : σ) {day loQ hiQ : Int}
    (hlo : 0 ≤ loQ) (hhi : hiQ ≤ 288) :
    (cells loQ hiQ).foldl (fun s q => f s (day * nsPerDay) q) s =
      (cells (288 * day + loQ) (288 * day + hiQ)).foldl
        (fun s g => f s (g / 288 * nsPerDay) (g % 288)) s := by
  rw [cells_add, foldl_map]
  refine foldl_ext _ _ s fun s q hq => ?_
  obtain ⟨h1, h2⟩ := mem_cells.mp hq
  rw [show (288 * day + q) / 288 = day by omega, show (288 * day + q) % 288 = q by omega]

/-- The loop over the segments from a day on goes over the quanta one by one. -/
theorem foldQuanta_from {σ : Type} (f : σ → Int → Int → σ) (s : σ) (hday : 0 ≤ day)
    (hend : endN ≤ lastMidnight) (hlt : startN < endN) (hnext : startN < (day + 1) * nsPerDay) :
    foldQuanta f s ((cells day (dayAfter endN)).map fun d => segment startN endN (d * nsPerDay)) =
      (cells (max (startN / nsPerQuantum) (288 * day)) (quantumAfter endN)).foldl
        (fun s g => f s (g / 288 * nsPerDay) (g % 288)) s := by
  -- the induction is on the days that are left
  induction hn : (dayAfter endN - day).toNat generalizing day s with
  | zero =>
    have hle : dayAfter endN ≤ day := by omega
    rw [cells_of_le hle, cells_of_le]
    · rfl
    · unfold dayAfter nsPerDay at hle
      unfold quantumAfter nsPerQuantum
      omega
  | succ n ih =>
    have hlast : day < dayAfter endN := by omega
    have hday' : day * nsPerDay < endN := by
      unfold dayAfter at hlast
      unfold nsPerDay at hlast ⊢
      omega
    rw [cells_cons hlast, map_cons, foldQuanta, foldl_cons]
    refine (ih _ (by omega) (by unfold nsPerDay at hnext ⊢; omega) (by omega)).trans ?_
    rw [segment_midnight (by omega) hday' hend hnext,
      foldl_cells_day f s (le_max_left ..) (min_le_left ..),
      ← foldl_append]
    congr 1
    unfold quantumAfter
    unfold nsPerDay at hday' hnext
    unfold nsPerQuantum
    by_cases hmore : (endN + 300000000000 - 1) / 300000000000 ≤ 288 * (day + 1)
    · -- the period ends on this day
      rw [cells_of_le (le_max_of_le_right hmore), append_nil]
      congr 1 <;> omega
    · rw [← cells_append (by omega : max (startN / 300000000000) (288 * day) ≤ 288 * (day + 1))
        (by omega)]
      congr 2 <;> omega

section readable

variable {p : Span} (hp : p.Readable)

include hp

/-- The first day of a period, by its number. -/
theorem Span.Readable.day_spec : 0 ≤ p.start / nsPerDay ∧ p.start / nsPerDay ≤ dayAfter p.stop ∧
    p.start < (p.start / nsPerDay + 1) * nsPerDay ∧
    288 * (p.start / nsPerDay) ≤ p.start / nsPerQuantum := by
  obtain ⟨hstart, hvalid, hstop⟩ := hp
  unfold dayAfter nsPerQuantum nsPerDay
  omega

/-- **A read goes over the quanta of its period.** -/
theorem foldl_quantaInPeriod :
    ∃ segs, quantaInPeriod p = some segs ∧ ∀ {σ : Type} (f : σ → Int → Int → σ) (s : σ),
      foldQuanta f s segs =
        (cells (p.start / nsPerQuantum) (quantumAfter p.stop)).foldl
          (fun s g => f s (g / 288 * nsPerDay) (g % 288)) s := by
  obtain ⟨h0, -, hnext, hfirst⟩ := hp.day_spec
  refine ⟨(cells (p.start / nsPerDay) (dayAfter p.stop)).map fun d =>
    segment p.start p.stop (d * nsPerDay), ?_, fun f s => ?_⟩
  · rw [quantaInPeriod, hp.daily.days_eq, unixNano_of_inReach hp.daily.inReach.1,
      unixNano_of_inReach hp.daily.inReach.2, Option.map_some, map_map]
    rfl
  · rw [foldQuanta_from f s h0 hp.reach hp.valid hnext, max_eq_left hfirst]

end readable

namespace Occupancy

variable {o : Occupancy} {p w : Span}

/-- The quantum is free: neither plane has it set. -/
def Free (o : Occupancy) (g : Int) : Prop :=
  (o.dayOn .binding (g / 288 * nsPerDay)).test (g % 288) = false ∧
    (o.dayOn .proposed (g / 288 * nsPerDay)).test (g % 288) = false
deriving Decidable

theorem clear_countQuantum (c : Counts) (g : Int) :
    (o.countQuantum c (g / 288 * nsPerDay) (g % 288)).Clear ↔ c.Clear ∧ o.Free g := by
  unfold countQuantum Counts.Clear Free
  split
  · simp_all
  · split <;> simp_all

/-- Nothing is counted as taken iff every quantum is free. -/
theorem clear_foldl_countQuantum (l : List Int) (c : Counts) :
    (l.foldl (fun c g => o.countQuantum c (g / 288 * nsPerDay) (g % 288)) c).Clear ↔
      c.Clear ∧ ∀ g ∈ l, o.Free g := by
  induction l generalizing c with
  | nil => simp
  | cons g l ih => rw [foldl_cons, ih, clear_countQuantum, forall_mem_cons, and_assoc]

theorem countQuanta_eq (hp : p.Readable) : ∃ c, o.countQuanta p = .ok c ∧
      (c.Clear ↔ ∀ g ∈ cells (p.start / nsPerQuantum) (quantumAfter p.stop), o.Free g) := by
  obtain ⟨segs, hsegs, hfold⟩ := foldl_quantaInPeriod hp
  unfold countQuanta
  simp only [if_pos (show p.Valid from hp.valid), hsegs, hfold]
  exact ⟨_, rfl, (clear_foldl_countQuantum _ _).trans (and_iff_right ⟨rfl, rfl⟩)⟩

/-- **Availability.**  A period is reported free iff every quantum it touches is. -/
theorem isFree_eq (hp : p.Readable) :
    o.isFree p = .ok (decide (∀ g ∈ cells (p.start / nsPerQuantum) (quantumAfter p.stop),
      o.Free g)) := by
  obtain ⟨c, hc, hclear⟩ := countQuanta_eq (o := o) hp
  unfold isFree
  simp only [hc, ← Bool.decide_and]
  exact congrArg Except.ok (decide_eq_decide.mpr hclear)

/-! ### The runs are the maximal stretches -/

/-- The loop variables that stand for a state of the scan. -/
def RunScan.ofScan (s : Scan) : RunScan where
  runStartNanos := match s.start with
    | none => -1
    | some a => a * nsPerQuantum
  runs := s.done.map fun x => ⟨x.1 * nsPerQuantum, x.2 * nsPerQuantum,
    wrap (x.2 * nsPerQuantum - x.1 * nsPerQuantum)⟩

/-- The opening of a stretch of quanta. -/
def clipped (w : Span) (x : Int × Int) : Opening :=
  let start := max (x.1 * nsPerQuantum) w.start
  let stop := min (x.2 * nsPerQuantum) w.stop
  ⟨start, stop, stop - start⟩

variable {s : Scan}

theorem flush_ofScan (hs : ∀ a ∈ s.start, 0 ≤ a) (g : Int) :
    (RunScan.ofScan s).flush (g * nsPerQuantum) = RunScan.ofScan (s.close g) := by
  unfold RunScan.flush RunScan.ofScan Scan.close
  rcases hstart : s.start with - | a
  · simp only
    rw [if_neg (by decide), hstart]
  · have h0 := hs a hstart
    simp only
    rw [if_pos (by unfold nsPerQuantum; omega)]
    simp

theorem scanQuantum_ofScan (hs : ∀ a ∈ s.start, 0 ≤ a) {g : Int} (h0 : 0 ≤ g)
    (hg : g * nsPerQuantum ≤ lastMidnight) : o.scanQuantum (RunScan.ofScan s) (g / 288 * nsPerDay)
    (g % 288) = RunScan.ofScan (s.step o.Free g) := by
  have hq : wrap (g / 288 * nsPerDay + g % 288 * nsPerQuantum) = g * nsPerQuantum := by
    unfold lastMidnight at hg
    unfold nsPerDay nsPerQuantum at *
    rw [wrap_of_inRange]
    · omega
    · unfold InRange
      omega
  unfold scanQuantum Scan.step
  rw [hq]
  split
  · rename_i hfree
    rw [if_pos (show o.Free g from hfree)]
    unfold RunScan.ofScan
    rcases hstart : s.start with - | a
    · simp
    · have := hs a hstart
      simp only [Option.getD_some]
      rw [if_neg (by unfold nsPerQuantum; omega)]
  · rename_i hbusy
    rw [if_neg (show ¬ o.Free g from hbusy), flush_ofScan hs]

/-- The loop is the scan for stretches of free quanta. -/
theorem foldl_scanQuantum {lo hi : Int} (h0 : 0 ≤ lo)
    (hhi : (hi - 1) * nsPerQuantum ≤ lastMidnight) :
    (cells lo hi).foldl (fun s g => o.scanQuantum s (g / 288 * nsPerDay) (g % 288)) ⟨-1, []⟩ =
      RunScan.ofScan (scan o.Free lo hi) ∧ ∀ a ∈ (scan o.Free lo hi).start, 0 ≤ a := by
  refine foldl_rel (r := fun r s => r = RunScan.ofScan s ∧ ∀ a ∈ s.start, 0 ≤ a)
    ⟨rfl, fun a ha => nomatch ha⟩ ?_
  rintro g hg _ s ⟨rfl, hs⟩
  obtain ⟨hg0, hg1⟩ := mem_cells.mp hg
  refine ⟨scanQuantum_ofScan hs (by omega) (by unfold nsPerQuantum at *; omega), fun a ha => ?_⟩
  unfold Scan.step at ha
  split at ha
  · rcases hstart : s.start with - | a'
    · rw [hstart] at ha
      cases ha
      exact h0.trans hg0
    · rw [hstart] at ha
      cases ha
      exact hs a' hstart
  · unfold Scan.close at ha
    split at ha
    · exact hs a ha
    · cases ha

theorem instantSub_eq {x y : Int} (h : InRange (x - y)) : instantSub x y = x - y := by
  unfold InRange at h
  unfold instantSub
  rw [if_neg (by omega), if_neg (by omega)]

/-- A run of the loop that ends where the stretch does, or after the window, is clipped to the
opening of the stretch. -/
theorem clip_eq (hw : w.Readable) {a b t m : Int}
    (ha : 0 ≤ a * nsPerQuantum ∧ a * nsPerQuantum ≤ lastMidnight)
    (ht : 0 ≤ t ∧ t ≤ lastMidnight) (htb : min t w.stop = min (b * nsPerQuantum) w.stop) :
    Opening.clip w.start w.stop ⟨a * nsPerQuantum, t, m⟩ = clipped w (a, b) := by
  obtain ⟨hstart, hvalid, hstop⟩ := hw
  have hra : InReach (a * nsPerQuantum) := ⟨by omega, ha.2⟩
  have hrt : InReach t := ⟨by omega, ht.2⟩
  have h1 : (if a * nsPerQuantum < w.start then w.start else a * nsPerQuantum) =
      max (a * nsPerQuantum) w.start := by
    split <;> omega
  have h2 : (if w.stop < t then w.stop else t) = min (b * nsPerQuantum) w.stop := by
    split <;> omega
  unfold Opening.clip clipped
  simp only [unixNano_of_inReach hra, unixNano_of_inReach hrt, h1, h2]
  rw [instantSub_eq]
  have : lastMidnight = 9223286400000000000 := rfl
  unfold InRange
  omega

/-- The runs that the loop has flushed. -/
theorem runs_ofScan (hw : w.Readable)
    (hinv : s.Inv o.Free (w.start / nsPerQuantum) (quantumAfter w.stop)) :
    (RunScan.ofScan s).runs.map (Opening.clip w.start w.stop) = s.done.map (clipped w) := by
  rw [RunScan.ofScan, map_map]
  refine map_congr_left ?_
  rintro ⟨a, b⟩ hab
  obtain ⟨hm, hlt⟩ := (hinv.mem_done a b).mp hab
  obtain ⟨hlo, hhi, -⟩ := hw.quanta
  have h1 := hm.lo_le
  have h2 := hm.lt
  have hQ : 0 ≤ a * nsPerQuantum ∧ a * nsPerQuantum ≤ lastMidnight ∧
      0 ≤ b * nsPerQuantum ∧ b * nsPerQuantum ≤ lastMidnight := by
    unfold nsPerQuantum at *
    omega
  exact clip_eq hw ⟨hQ.1, hQ.2.1⟩ hQ.2.2 rfl

/-- **The runs of a window** are the maximal stretches of its free quanta, clipped to it. -/
theorem freeRuns_eq (hw : w.Readable) :
    o.freeRuns w = .ok ((stretches o.Free (w.start / nsPerQuantum) (quantumAfter w.stop)).map
      (clipped w)) := by
  obtain ⟨segs, hsegs, hfold⟩ := foldl_quantaInPeriod hw
  obtain ⟨hstart, hvalid, hstop⟩ := id hw
  obtain ⟨hlo, hhi, hle⟩ := hw.quanta
  obtain ⟨hscan, hnonneg⟩ := foldl_scanQuantum (o := o) hlo hhi
  have hinv := inv_scan (P := o.Free) hw.le_quantumAfter
  unfold freeRuns
  simp only [if_pos (show w.Valid from hvalid), hsegs, hfold, hscan,
    unixNano_of_inReach hw.daily.inReach.1, unixNano_of_inReach hw.daily.inReach.2]
  refine congrArg Except.ok ?_
  unfold stretches
  generalize scan o.Free (w.start / nsPerQuantum) (quantumAfter w.stop) = s at *
  unfold Scan.close RunScan.flush
  rcases hs : s.start with - | a
  · rw [if_neg (by simp [RunScan.ofScan, hs])]
    exact runs_ofScan hw hinv
  · -- the open run is flushed at the end of the window
    have ha := hnonneg a hs
    have hm := (hinv.start_eq a).mp hs
    have h2 := hm.lt
    have hrun : (RunScan.ofScan s).runStartNanos = a * nsPerQuantum := by
      simp only [RunScan.ofScan, hs]
    have hQ : 0 ≤ a * nsPerQuantum ∧ a * nsPerQuantum ≤ lastMidnight := by
      unfold nsPerQuantum at *
      omega
    rw [hrun, if_pos hQ.1]
    simp only [map_append, runs_ofScan hw hinv, map_cons, map_nil]
    rw [clip_eq hw hQ ⟨by omega, hstop⟩]
    rw [min_self, min_eq_right hle]

/-! ### Openings -/

/-- The maximal stretches of free quanta of a window. -/
def FreeStretch (o : Occupancy) (w : Span) (a b : Int) : Prop :=
  IsMaximal o.Free (w.start / nsPerQuantum) (quantumAfter w.stop) a b

/-- The openings that are long enough, in chronological order. -/
def fits (o : Occupancy) (w : Span) (duration : Int) : List Opening :=
  ((stretches o.Free (w.start / nsPerQuantum) (quantumAfter w.stop)).map (clipped w)).filter
    fun r => decide (duration ≤ r.stop - r.start)

variable {duration : Int}

theorem mem_fits (hw : w.Readable) {r : Opening} : r ∈ o.fits w duration ↔
      ∃ a b, o.FreeStretch w a b ∧ r = clipped w (a, b) ∧ duration ≤ r.stop - r.start := by
  simp only [fits, mem_filter, mem_map, Prod.exists, mem_stretches hw.le_quantumAfter,
    decide_eq_true_eq]
  constructor
  · rintro ⟨⟨a, b, hm, rfl⟩, hle⟩
    exact ⟨a, b, hm, rfl, hle⟩
  · rintro ⟨a, b, hm, rfl, hle⟩
    exact ⟨⟨a, b, hm, rfl⟩, hle⟩

/-- A stretch has a part in the window. -/
theorem start_lt_stop (hw : w.Readable) {a b : Int} (hm : o.FreeStretch w a b) :
    (clipped w (a, b)).start < (clipped w (a, b)).stop := by
  have h1 := hm.lo_le
  have h2 := hm.lt
  have h3 := hm.le_hi
  have h4 := hw.valid
  unfold quantumAfter at h3
  unfold clipped nsPerQuantum at *
  dsimp only
  omega

theorem pairwise_fits (hw : w.Readable) (duration : Int) :
    (o.fits w duration).Pairwise fun r r' => r.stop < r'.start := by
  refine List.Pairwise.filter _ (pairwise_map.mpr ?_)
  refine (pairwise_stretches hw.le_quantumAfter).imp fun {x y} hxy => ?_
  unfold clipped nsPerQuantum
  dsimp only
  omega

theorem mem_sortSlice {less : Opening → Opening → Bool} {l : List Opening} {r : Opening} :
    r ∈ sortSlice less l ↔ r ∈ l :=
  (mergeSort_perm l _).mem_iff

/-- What `openings` computes before it sorts. -/
theorem openings_eq (hw : w.Readable) (hd : 0 < duration) (obj : Objective) :
    o.openings w duration obj =
      match obj with
      | .earliest | .other "" => .ok (sortSlice earlier (o.fits w duration))
      | .firstFit => .ok ((sortSlice earlier (o.fits w duration)).take 1)
      | .emptiest | .longestClr => .ok (sortSlice roomier (o.fits w duration))
      | .other name => .error (.unknownObjective name) := by
  have hfit : ((stretches o.Free (w.start / nsPerQuantum) (quantumAfter w.stop)).map
      (clipped w)).filter (fun r => decide (duration ≤ instantSub r.stop r.start)) =
      o.fits w duration := by
    refine filter_congr fun r hr => ?_
    obtain ⟨⟨a, b⟩, hab, rfl⟩ := mem_map.mp hr
    rw [instantSub_eq]
    have hlt := start_lt_stop hw ((mem_stretches hw.le_quantumAfter).mp hab)
    have h0 := hw.nonneg
    have h1 := hw.reach
    unfold lastMidnight nsPerDay at h1
    unfold clipped at hlt ⊢
    unfold InRange
    dsimp only at hlt ⊢
    omega
  unfold openings
  rw [if_neg (not_not.mpr (show w.Valid from hw.valid)), if_neg (not_le.mpr hd), freeRuns_eq hw]
  simp only [hfit]

/-- The openings of any objective but first-fit are those that are long enough. -/
theorem openings_mem (hw : w.Readable) (hd : 0 < duration) {obj : Objective}
    (hobj : obj.Known) (hfirst : obj ≠ .firstFit) :
    ∃ ops, o.openings w duration obj = .ok ops ∧ ∀ r, r ∈ ops ↔ r ∈ o.fits w duration := by
  rw [openings_eq hw hd]
  cases obj with
  | firstFit => exact absurd rfl hfirst
  | earliest => exact ⟨_, rfl, fun _ => mem_sortSlice⟩
  | emptiest | longestClr => exact ⟨_, rfl, fun _ => mem_sortSlice⟩
  | other name =>
    obtain rfl : name = "" := hobj
    exact ⟨_, rfl, fun _ => mem_sortSlice⟩

/-- In chronological order they need no sorting. -/
theorem openings_earliest (hw : w.Readable) (hd : 0 < duration) :
    o.openings w duration .earliest = .ok (o.fits w duration) := by
  rw [openings_eq hw hd]
  refine congrArg Except.ok (mergeSort_of_pairwise ?_)
  refine (pairwise_fits hw duration).imp_of_mem fun {r r'} hr hr' hlt => ?_
  obtain ⟨a, b, hm, rfl, -⟩ := (mem_fits hw).mp hr
  have := start_lt_stop hw hm
  simp only [earlier, Bool.not_eq_true', decide_eq_false_iff_not]
  omega

end Occupancy

end Xolu.Cal
