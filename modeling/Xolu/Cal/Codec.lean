/-
# Spans and day bitmaps (pkg/cal/codec.go)

A calendar's occupancy is kept per UTC day in 288 quanta of five minutes, one bit each.
`SpanDays` cuts a half-open span at midnights and gives the bits of every day it touches.
It works on `UnixNano`, that is in int64: an instant outside that range wraps, days before
the epoch are cut by Go's truncating division, and the loop over days wraps as well if the
span ends after the last midnight that int64 can represent.
-/
import Xolu.Lib.Num64
import Xolu.Lib.Stretch
import Xolu.Chronicle.Grain

namespace Xolu.Cal

open List Num64 Instant BitVec Option Stretch

def quantaPerDay : Int := 288

def nsPerQuantum : Int := 300000000000

def nsPerDay : Int := 86400000000000

def unixNano (t : Int) : Int := wrap t

/-- `Instant.IsZero`: the epoch and Go's zero time are both unset. -/
def isZero (t : Int) : Bool := decide (t = zeroTime) || decide (t = 0)

/-- The half-open interval from `start` to `stop`. -/
structure Span where
  start : Int
  stop : Int
deriving DecidableEq, Repr

def Span.Valid (s : Span) : Prop := s.start < s.stop
deriving Decidable

/-! ### Day bitmaps -/

/-- `DayBitmap`: five 64-bit words, of which 288 bits are used. -/
structure DayBitmap where
  bits : BitVec 320
deriving DecidableEq, Repr

namespace DayBitmap

/-- Union is the join, so `a ≤ b` says that every quantum of `a` is one of `b`. -/
instance : SemilatticeSup DayBitmap :=
  letI : Max DayBitmap := ⟨fun a b => ⟨a.bits ||| b.bits⟩⟩
  SemilatticeSup.mk'
    (fun a b => congrArg mk (or_comm a.bits b.bits))
    (fun a b c => congrArg mk (or_assoc a.bits b.bits c.bits))
    (fun _ => congrArg mk or_self)

/-- The empty day. -/
instance : OrderBot DayBitmap where
  bot := ⟨0⟩
  bot_le _ := congrArg mk zero_or

theorem le_iff {a b : DayBitmap} : a ≤ b ↔ a ⊔ b = b := Iff.rfl

instance : DecidableLE DayBitmap := fun _ _ => decidable_of_iff _ le_iff.symm

variable (b : DayBitmap)

def isZero : Bool := decide (b = ⊥)

/-- One quantum set. -/
def set (q : Nat) : DayBitmap := ⟨b.bits ||| (1 <<< q)⟩

/-- `SetRange`: the quanta from `lo` up to `hi`, clamped to the day. -/
def setRange (lo hi : Int) : DayBitmap :=
  let lo := if lo < 0 then 0 else lo
  let hi := if quantaPerDay < hi then quantaPerDay else hi
  (List.range' lo.toNat (hi - lo).toNat).foldl set b

/-- `Test`: a quantum outside the day is not occupied. -/
def test (q : Int) : Bool :=
  if q < 0 ∨ quantaPerDay ≤ q then false else b.bits.getLsbD q.toNat

variable {b c : DayBitmap} {q lo hi : Int}

theorem test_of_mem (h0 : 0 ≤ q) (hq : q < quantaPerDay) : b.test q = b.bits.getLsbD q.toNat :=
  if_neg (not_or.mpr ⟨not_lt.mpr h0, not_le.mpr hq⟩)

theorem test_of_not_mem (h : q < 0 ∨ quantaPerDay ≤ q) : b.test q = false := if_pos h

@[simp] theorem test_bot : (⊥ : DayBitmap).test q = false := by
  unfold test
  split
  · rfl
  · exact getLsbD_zero

@[simp] theorem test_sup : (b ⊔ c).test q = (b.test q || c.test q) := by
  unfold test
  split
  · rfl
  · exact getLsbD_or

theorem getLsbD_set {i j : Nat} (hj : j < 320) :
    (b.set i).bits.getLsbD j = (b.bits.getLsbD j || decide (i = j)) := by
  rw [set, getLsbD_or]
  rw [natCast_eq_ofNat, getLsbD_ofNat, Nat.one_shiftLeft, Nat.testBit_two_pow,
    decide_eq_true hj, Bool.true_and]

theorem getLsbD_foldl_set (l : List Nat) {j : Nat} (hj : j < 320) :
    (l.foldl set b).bits.getLsbD j = (b.bits.getLsbD j || decide (j ∈ l)) := by
  induction l generalizing b with
  | nil => simp
  | cons i l ih =>
    rw [foldl_cons, ih, getLsbD_set hj, Bool.or_assoc, ← Bool.decide_or]
    simp only [mem_cons, eq_comm]

/-- The quanta set in a range. -/
theorem test_setRange : (b.setRange lo hi).test q =
    (b.test q || decide (lo ≤ q ∧ q < hi ∧ 0 ≤ q ∧ q < quantaPerDay)) := by
  by_cases h : q < 0 ∨ quantaPerDay ≤ q
  · rw [test_of_not_mem h, test_of_not_mem h, Bool.false_or, eq_comm, decide_eq_false_iff_not]
    omega
  · unfold quantaPerDay at h
    rw [test_of_mem (by omega) (by unfold quantaPerDay; omega),
      test_of_mem (by omega) (by unfold quantaPerDay; omega), setRange,
      getLsbD_foldl_set _ (by omega)]
    refine congrArg (b.bits.getLsbD q.toNat || ·) (decide_eq_decide.mpr ?_)
    rw [mem_range'_1]
    split <;> split <;> omega

end DayBitmap

/-! ### The days of a span -/

/-- `DayOccupancy`: a day, by its first nanosecond, and the bits a span sets in it. -/
structure DayOccupancy where
  dayNanos : Int
  bits : DayBitmap
deriving DecidableEq, Repr

/-- One round of the loop of `SpanDays`: the bits for the day that begins at `dayStart`. -/
def dayBits (startN endN dayStart : Int) : DayBitmap :=
  let dayEnd := wrap (dayStart + nsPerDay)
  let loN := if startN < dayStart then dayStart else startN
  let hiN := if dayEnd < endN then dayEnd else endN
  let loQ := (wrap (loN - dayStart)).tdiv nsPerQuantum
  -- the quantum that holds the last nanosecond is occupied, one that begins at `hiN` is not
  let hiQ := (wrap (hiN - dayStart + nsPerQuantum - 1)).tdiv nsPerQuantum
  (⊥ : DayBitmap).setRange loQ (if quantaPerDay < hiQ then quantaPerDay else hiQ)

/-- The loop of `SpanDays`, for so many rounds at most. -/
def spanLoop (startN endN : Int) : Nat → Int → Option (List DayOccupancy)
  | 0, _ => none
  | n + 1, dayStart =>
    if dayStart < endN then
      (spanLoop startN endN n (wrap (dayStart + nsPerDay))).map fun out =>
        let bm := dayBits startN endN dayStart
        if bm.isZero then out else ⟨dayStart, bm⟩ :: out
    else some []

/-- How `SpanDays` fails: an invalid span is refused, and a loop that goes round the whole of
int64 does not end. -/
inductive SpanError where
  | invalid
  | endless
deriving DecidableEq, Repr

/-- The number of int64 values, and so of rounds before the loop repeats itself. -/
def maxRounds : Nat := 18446744073709551616

def spanDays (s : Span) : Except SpanError (List DayOccupancy) :=
  if s.Valid then
    let startN := unixNano s.start
    let endN := unixNano s.stop
    match spanLoop startN endN maxRounds ((startN.tdiv nsPerDay) * nsPerDay) with
    | some days => .ok days
    | none => .error .endless
  else .error .invalid

/-- The days at which a loop over days begins a round, for so many rounds at most. -/
def daysUntil (endN : Int) : Nat → Int → Option (List Int)
  | 0, _ => none
  | n + 1, dayStart =>
    if dayStart < endN then
      (daysUntil endN n (wrap (dayStart + nsPerDay))).map (dayStart :: ·)
    else some []

/-- The days at which a loop over the days of a period begins a round. -/
def Span.days (p : Span) : Option (List Int) :=
  daysUntil (unixNano p.stop) maxRounds ((unixNano p.start).tdiv nsPerDay * nsPerDay)

/-! ### The loop over days -/

variable {startN endN : Int} {days : List Int} {n : Nat} {d : Int} {p : Span}

/-- The days of `SpanDays` are those of the loop, without the empty ones. -/
theorem spanLoop_eq : spanLoop startN endN n d = (daysUntil endN n d).map fun days =>
    (days.map fun day => (⟨day, dayBits startN endN day⟩ : DayOccupancy)).filter
      fun o => !o.bits.isZero := by
  induction n generalizing d with
  | zero => rfl
  | succ n ih =>
    rw [spanLoop, daysUntil, ih]
    split
    · rw [Option.map_map, Option.map_map]
      congr 1
      funext days
      simp only [Function.comp_apply, map_cons, filter_cons]
      cases (dayBits startN endN d).isZero <;> rfl
    · rfl

variable {out : List DayOccupancy}

theorem spanDays_eq_ok_iff : spanDays p = .ok out ↔
    p.Valid ∧ ∃ days, p.days = some days ∧ (days.map fun day =>
      (⟨day, dayBits (unixNano p.start) (unixNano p.stop) day⟩ : DayOccupancy)).filter
        (fun o => !o.bits.isZero) = out := by
  unfold spanDays Span.days
  simp only [spanLoop_eq]
  rcases daysUntil _ maxRounds _ with - | days
  · split <;> simp
  · split <;> simp [*]

theorem daysUntil_succ (h : daysUntil endN n d = some days) :
    daysUntil endN (n + 1) d = some days := by
  induction n generalizing d days with
  | zero => cases h
  | succ n ih =>
    rw [daysUntil] at h ⊢
    split
    · rw [if_pos ‹_›] at h
      obtain ⟨rest, hrest, rfl⟩ := map_eq_some_iff.mp h
      rw [ih hrest, map_some]
    · rwa [if_neg ‹_›] at h

/-- The days of a loop that ends within `n` rounds are starts from which it ends so too. -/
theorem exists_daysUntil_of_mem {e : Int} (h : daysUntil endN n d = some days) (he : e ∈ days) :
    ∃ days', daysUntil endN n e = some days' := by
  induction n generalizing d days with
  | zero => cases h
  | succ n ih =>
    have hd := h
    rw [daysUntil] at h
    split at h
    · obtain ⟨rest, hrest, rfl⟩ := map_eq_some_iff.mp h
      rcases mem_cons.mp he with rfl | he
      · exact ⟨_, hd⟩
      · obtain ⟨days', hdays'⟩ := ih hrest he
        exact ⟨days', daysUntil_succ hdays'⟩
    · cases h
      cases he

/-- A loop that ends never comes back to a day: it would go round for ever.  The induction is
on the least number of rounds. -/
theorem nodup_daysUntil (h : daysUntil endN n d = some days) : days.Nodup := by
  induction n generalizing d days with
  | zero => cases h
  | succ n ih =>
    -- fewer rounds may be enough
    rcases hn : daysUntil endN n d with - | days'
    · rw [daysUntil] at h
      split at h
      · obtain ⟨rest, hrest, rfl⟩ := map_eq_some_iff.mp h
        refine nodup_cons.mpr ⟨fun hmem => ?_, ih hrest⟩
        obtain ⟨days', hdays'⟩ := exists_daysUntil_of_mem hrest hmem
        rw [hn] at hdays'
        cases hdays'
      · cases h
        exact nodup_nil
    · obtain rfl : days' = days := some.inj ((daysUntil_succ hn).symm.trans h)
      exact ih hn

theorem nodup_spanDays (h : spanDays p = .ok out) : (out.map DayOccupancy.dayNanos).Nodup := by
  obtain ⟨-, days, hdays, rfl⟩ := spanDays_eq_ok_iff.mp h
  refine Nodup.sublist (filter_sublist.map _) ?_
  rw [List.map_map]
  exact (map_id days).symm ▸ nodup_daysUntil hdays

/-- The rounds of a loop that ends: all begin before the end, and the last is a day before a
time that does not. -/
theorem daysUntil_spec (h : daysUntil endN n d = some days) (hd : InRange d) :
    (∀ e ∈ days, e < endN ∧ InRange e) ∧
      (d < endN → ∃ init e, days = init ++ [e] ∧ endN ≤ wrap (e + nsPerDay)) := by
  induction n generalizing d days with
  | zero => cases h
  | succ n ih =>
    rw [daysUntil] at h
    split at h
    · rename_i hlt
      obtain ⟨rest, hrest, rfl⟩ := map_eq_some_iff.mp h
      obtain ⟨hall, hlast⟩ := ih hrest (wrap_inRange _)
      refine ⟨forall_mem_cons.mpr ⟨⟨hlt, hd⟩, hall⟩, fun _ => ?_⟩
      by_cases hnext : wrap (d + nsPerDay) < endN
      · obtain ⟨init, e, rfl, he⟩ := hlast hnext
        exact ⟨d :: init, e, rfl, he⟩
      · refine ⟨[], d, ?_, not_lt.mp hnext⟩
        -- the loop ends with this round
        cases n with
        | zero => cases hrest
        | succ n =>
          rw [daysUntil, if_neg hnext] at hrest
          cases hrest
          rfl
    · rename_i hge
      cases h
      exact ⟨fun e he => absurd he not_mem_nil, fun hlt => absurd hlt hge⟩

/-- `SpanDays` works in int64. -/
theorem Span.days_spec (h : p.days = some days) : ∀ e ∈ days, e < unixNano p.stop ∧ InRange e := by
  refine (daysUntil_spec h ?_).1
  have hrange := wrap_inRange p.start
  unfold unixNano nsPerDay
  unfold InRange at hrange ⊢
  rw [Int.tdiv_eq_ediv, Int.sign_eq_one_of_pos (by decide)]
  split_ifs <;> omega

/-! ### Instants within reach -/

/-- The last midnight that int64 can represent, 2262-04-11. -/
def lastMidnight : Int := 106751 * nsPerDay

/-- The instant is in int64 nanoseconds and the days up to it are. -/
def InReach (t : Int) : Prop := -9223372036854775808 ≤ t ∧ t ≤ lastMidnight
deriving Decidable

theorem unixNano_of_inReach {t : Int} (h : InReach t) : unixNano t = t := by
  apply wrap_of_inRange
  unfold InReach lastMidnight nsPerDay at h
  unfold InRange
  omega

/-- The number of the first day that begins at or after the instant. -/
def dayAfter (t : Int) : Int := (t + nsPerDay - 1) / nsPerDay

/-- Up to the last midnight the loop goes from midnight to midnight. -/
theorem daysUntil_midnights {day : Int} (hday : -106751 ≤ day) (hend : endN ≤ lastMidnight)
    (hle : day ≤ dayAfter endN) (hn : dayAfter endN < day + n) :
    daysUntil endN n (day * nsPerDay) = some ((cells day (dayAfter endN)).map (· * nsPerDay)) := by
  unfold lastMidnight nsPerDay at hend
  induction n generalizing day with
  | zero =>
    rw [Nat.cast_zero, Int.add_zero] at hn
    exact absurd hn (not_lt.mpr hle)
  | succ n ih =>
    rw [daysUntil]
    split
    · rename_i hlt
      unfold nsPerDay at hlt
      have hnext : wrap (day * nsPerDay + nsPerDay) = (day + 1) * nsPerDay := by
        rw [wrap_of_inRange, Int.add_mul, Int.one_mul]
        unfold InRange nsPerDay
        omega
      have hcons : day < dayAfter endN := by
        unfold dayAfter nsPerDay
        omega
      rw [hnext, ih (by omega) (by omega) (by omega), map_some, cells_cons hcons, map_cons]
    · rename_i hge
      rw [cells_of_le]
      · rfl
      · unfold dayAfter
        unfold nsPerDay at hge ⊢
        omega

/-- A loop over the days of a period within reach ends. -/
theorem Span.days_of_inReach (hp : p.Valid) (hstart : InReach p.start) (hstop : InReach p.stop) :
    p.days = some ((cells (p.start.tdiv nsPerDay) (dayAfter p.stop)).map (· * nsPerDay)) := by
  have hday : -106751 ≤ p.start.tdiv nsPerDay ∧ p.start.tdiv nsPerDay ≤ dayAfter p.stop ∧
      dayAfter p.stop < p.start.tdiv nsPerDay + maxRounds := by
    have hlow := hstart.1
    have hhigh := hstop.2
    unfold Valid at hp
    unfold lastMidnight at hhigh
    unfold dayAfter maxRounds nsPerDay at *
    rw [Int.tdiv_eq_ediv, Int.sign_eq_one_of_pos (by decide)]
    split_ifs <;> omega
  rw [days, unixNano_of_inReach hstart, unixNano_of_inReach hstop]
  exact daysUntil_midnights hday.1 hstop.2 hday.2.1 hday.2.2

/-- `SpanDays` returns for spans within reach. -/
theorem exists_spanDays (hp : p.Valid) (hstart : InReach p.start) (hstop : InReach p.stop) :
    ∃ out, spanDays p = .ok out :=
  ⟨_, spanDays_eq_ok_iff.mpr ⟨hp, _, Span.days_of_inReach hp hstart hstop, rfl⟩⟩

end Xolu.Cal
