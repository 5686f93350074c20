/-
# Aggregates over a range (pkg/timeseries/store.go)

`RangeAggregate` reads the entries between the bounds of a range once and keeps, for each of the
seven numeric fields, the sum, the least and the greatest value of the events that carry it.  The
events are counted once for all fields, and the average of a field is its sum by this count;
`RangeAvg` and `RangeCount` pick their result for one field, as the functions for the sum and the
two ends do, which are left out.

The arithmetic is exact: the fields are rational numbers, in stored events in the range of float64.
What is reported for a field is right, whatever the values are, if and only if the pass reads the
right events that carry the field and, if there is one, no event that does not
(`rangeAggregate_exact_iff`).
-/
import Xolu.Timeseries.Query

namespace Xolu.Timeseries

open List BigEndian Num64

def maxFloat64 : ℚ := (((2 ^ 53 - 1) * 2 ^ 971 : Nat) : ℚ)

/-- What an event carries: up to seven numbers, which are fields 0, 1, …, and a payload. -/
structure Value where
  nums : List ℚ
  payload : List UInt8
  length_le : nums.length ≤ 7
deriving DecidableEq

/-- The numbers are in the range of float64. -/
def Value.Finite (v : Value) : Prop := ∀ x ∈ v.nums, -maxFloat64 ≤ x ∧ x ≤ maxFloat64

structure RangeAllQuery where
  timeline : UInt32
  dims : List UInt64
  fromTime : Int
  toTime : Int
  /-- Not positive for no budget. -/
  maxScanEvents : Int
deriving DecidableEq, Repr

structure RangeNumQuery where
  timeline : UInt32
  dims : List UInt64
  fromTime : Int
  toTime : Int
  numField : Nat
  maxScanEvents : Int
deriving DecidableEq, Repr

/-- `rangeNumToAll`. -/
def RangeNumQuery.toAll (q : RangeNumQuery) : RangeAllQuery :=
  ⟨q.timeline, q.dims, q.fromTime, q.toTime, q.maxScanEvents⟩

/-- The same range for `QueryRange`. -/
def RangeAllQuery.range (q : RangeAllQuery) : RangeQuery :=
  ⟨q.timeline, q.dims, q.fromTime, q.toTime, 0, .asc, q.maxScanEvents⟩

structure RangeAggregateResult where
  count : Nat
  sums : Fin 7 → ℚ
  avgs : Fin 7 → ℚ
  mins : Fin 7 → ℚ
  maxs : Fin 7 → ℚ
  /-- The field was in an event. -/
  fields : Fin 7 → Bool

namespace RangeAggregateResult

/-- The result before the pass. -/
def start : RangeAggregateResult :=
  ⟨0, fun _ => 0, fun _ => 0, fun _ => maxFloat64, fun _ => -maxFloat64, fun _ => false⟩

/-- The loop over the numbers of an event, for one of the arrays. -/
def accumulate (op : ℚ → ℚ → ℚ) (nums : List ℚ) (acc : Fin 7 → ℚ) : Fin 7 → ℚ := fun i =>
  match nums[(i : Nat)]? with
  | some v => op (acc i) v
  | none => acc i

/-- One event of the pass. -/
def add (res : RangeAggregateResult) (nums : List ℚ) : RangeAggregateResult :=
  { res with
    count := res.count + 1
    fields := fun i => res.fields i || decide ((i : Nat) < nums.length)
    sums := accumulate (· + ·) nums res.sums
    mins := accumulate (fun acc v => if v < acc then v else acc) nums res.mins
    maxs := accumulate (fun acc v => if acc < v then v else acc) nums res.maxs }

/-- The averages, and zeros for the fields without an event. -/
def finish (res : RangeAggregateResult) : RangeAggregateResult :=
  if 0 < res.count then
    { res with
      avgs := fun i => if res.fields i then res.sums i / res.count else res.avgs i
      mins := fun i => if res.fields i then res.mins i else 0
      maxs := fun i => if res.fields i then res.maxs i else 0 }
  else { res with mins := fun _ => 0, maxs := fun _ => 0 }

end RangeAggregateResult

/-- The loop of `RangeAggregate`. -/
def aggregateLoop (q : RangeAllQuery) (dims : Nat) :
    Nat → RangeAggregateResult → List (Key × Value) → Except QueryError RangeAggregateResult
  | _, res, [] => .ok res
  | scanned, res, entry :: entries =>
    if 0 < q.maxScanEvents ∧ q.maxScanEvents < scanned + 1 then .error .scanLimit
    else if q.dims.length < dims then
      match decodeTimestamp entry.1 dims with
      | none => .error .keyShort
      | some ts =>
        if ts < q.fromTime ∨ q.toTime < ts then aggregateLoop q dims (scanned + 1) res entries
        else aggregateLoop q dims (scanned + 1) (res.add entry.2.nums) entries
    else aggregateLoop q dims (scanned + 1) (res.add entry.2.nums) entries

namespace PebbleStore

def rangeAggregate (s : PebbleStore Value) (q : RangeAllQuery) :
    Except QueryError RangeAggregateResult :=
  match s.registry q.timeline with
  | none => .error (.notDefined q.timeline)
  | some dims =>
    if q.dims.length < 1 ∨ dims < q.dims.length then .error (.queryDims q.dims.length dims)
    else
      match rangeBounds q.timeline dims q.dims q.fromTime q.toTime with
      | .error err => .error (.codec err)
      | .ok (startKey, endKey) =>
        match aggregateLoop q dims 0 .start (s.db.scan startKey endKey) with
        | .error err => .error err
        | .ok res => .ok res.finish

/-- The functions for one field. -/
def rangeNum {α : Type} (pick : RangeAggregateResult → Fin 7 → α) (s : PebbleStore Value)
    (q : RangeNumQuery) : Except QueryError α :=
  if h : 6 < q.numField then .error (.numField q.numField)
  else
    match s.rangeAggregate q.toAll with
    | .error err => .error err
    | .ok res => .ok (pick res ⟨q.numField, by omega⟩)

def rangeAvg : PebbleStore Value → RangeNumQuery → Except QueryError ℚ := rangeNum (·.avgs)

/-- `RangeCount`: the count of the pass, for a field that some event carries. -/
def rangeCount : PebbleStore Value → RangeNumQuery → Except QueryError Nat :=
  rangeNum fun res i => if res.fields i then res.count else 0

end PebbleStore

/-! ### What is reported for a field -/

/-- The values of a field, over the records that carry it. -/
def fieldValues (f : Nat) (recs : Records Value) : List ℚ := recs.filterMap fun r => r.2.nums[f]?

/-- The statistics of one field; all are zero without a value. -/
structure FieldReport where
  count : Nat
  sum : ℚ
  avg : ℚ
  min : ℚ
  max : ℚ

/-- The statistics of some values. -/
def FieldReport.of (values : List ℚ) : FieldReport where
  count := values.length
  sum := values.sum
  avg := values.sum / values.length
  min := values.min?.getD 0
  max := values.max?.getD 0

/-- The part of a result that is about one field. -/
def RangeAggregateResult.Reports (res : RangeAggregateResult) (f : Fin 7) (r : FieldReport) :
    Prop :=
  res.sums f = r.sum ∧ res.avgs f = r.avg ∧ res.mins f = r.min ∧ res.maxs f = r.max

namespace RangeNumQuery

section

variable (q : RangeNumQuery)

/-- An event the query asks for. -/
def Selects (e : Event) : Prop := q.toAll.range.Selects e
deriving Decidable

/-- The statistics of the field over the stored events of the range that carry it. -/
def answer (recs : Records Value) : FieldReport :=
  .of (fieldValues q.numField (recs.filter fun r => q.Selects r.1.stored))

/-- What is reported for the field is right. -/
def Exact (s : PebbleStore Value) (recs : Records Value) : Prop :=
  (∃ h : q.numField < 7, ∃ res, s.rangeAggregate q.toAll = .ok res ∧
      res.Reports ⟨q.numField, h⟩ (q.answer recs)) ∧
    s.rangeAvg q = .ok (q.answer recs).avg ∧ s.rangeCount q = .ok (q.answer recs).count

/-- The key is between the bounds of the range. -/
def Bounds (dims : Nat) (e : Event) : Prop :=
  InBounds (rangeStart q.timeline dims q.dims q.fromTime).key
    (increment (rangeStop q.timeline dims q.dims q.toTime).key) e.key
deriving Decidable

/-- The pass counts the event: it is between the bounds and not filtered out. -/
def Reads (dims : Nat) (e : Event) : Prop := q.Bounds dims e ∧ q.toAll.range.keeps dims e.readTime
deriving Decidable

end

/-- What a right report needs: no short key where the time is looked at, the right events that
carry the field, and if there is one, no other ones. -/
structure Safe (q : RangeNumQuery) (dims : Nat) (recs : Records Value) : Prop where
  carry : q.dims.length < dims → ∀ r ∈ recs, q.Bounds dims r.1 → r.1.timeline = q.timeline
  same : ∀ r ∈ recs, q.numField < r.2.nums.length → (q.Reads dims r.1 ↔ q.Selects r.1.stored)
  whole : ∀ r ∈ recs, ∀ r' ∈ recs, q.Reads dims r.1 → q.Reads dims r'.1 →
    q.numField < r.2.nums.length → q.numField < r'.2.nums.length

end RangeNumQuery

/-- The same events with the same numbers of fields. -/
def SameFields (recs recs' : Records Value) : Prop :=
  recs.map (fun r => (r.1, r.2.nums.length)) = recs'.map fun r => (r.1, r.2.nums.length)

/-! ### The accumulators -/

section Accumulators

variable {recs : Records Value} {f : Fin 7}

/-- The pass over some records, from a result. -/
def addAll (res : RangeAggregateResult) (recs : Records Value) : RangeAggregateResult :=
  recs.foldl (fun res r => res.add r.2.nums) res

/-- The whole pass. -/
def collect (recs : Records Value) : RangeAggregateResult := addAll .start recs

theorem fieldValues_cons (f : Nat) (r : Event × Value) (recs : Records Value) :
    fieldValues f (r :: recs) = r.2.nums[f]?.toList ++ fieldValues f recs := by
  rw [fieldValues, filterMap_cons]
  cases r.2.nums[f]? with
  | none | some => rfl

/-- **The pass** folds, for each field, the values of the records that carry it. -/
theorem addAll_spec (f : Fin 7) (res : RangeAggregateResult) :
    (addAll res recs).count = res.count + recs.length ∧ (addAll res recs).avgs = res.avgs ∧
      (addAll res recs).fields f = (res.fields f || !(fieldValues f recs).isEmpty) ∧
      (addAll res recs).sums f = (fieldValues f recs).foldl (· + ·) (res.sums f) ∧
      (addAll res recs).mins f = (fieldValues f recs).foldl min (res.mins f) ∧
      (addAll res recs).maxs f = (fieldValues f recs).foldl max (res.maxs f) := by
  induction recs generalizing res with
  | nil => simp [addAll, fieldValues]
  | cons r recs ih =>
    rw [addAll, foldl_cons, ← addAll, fieldValues_cons]
    obtain ⟨hcount, havgs, hfields, hsums, hmins, hmaxs⟩ := ih (res.add r.2.nums)
    rw [hcount, havgs, hfields, hsums, hmins, hmaxs]
    -- one more event, with a value of the field or not
    have hmin : ∀ a v : ℚ, (if v < a then v else a) = min a v := fun a v => by
      rw [min_comm, min_def_lt]
    have hmax : ∀ a v : ℚ, (if a < v then v else a) = max a v := fun a v => by
      rw [max_def_lt]
    simp only [RangeAggregateResult.add, RangeAggregateResult.accumulate, hmin, hmax]
    rcases hvalue : r.2.nums[(f : Nat)]? with - | v
    · have hlength : ¬ (f : Nat) < r.2.nums.length :=
        not_lt.mpr (List.getElem?_eq_none_iff.mp hvalue)
      simp [hlength]
      omega
    · have hlength : (f : Nat) < r.2.nums.length := (List.getElem?_eq_some_iff.mp hvalue).1
      simp [hlength]
      omega

theorem le_of_mem_fieldValues (hfinite : ∀ r ∈ recs, r.2.Finite) {f : Nat} {v : ℚ}
    (h : v ∈ fieldValues f recs) : -maxFloat64 ≤ v ∧ v ≤ maxFloat64 := by
  obtain ⟨r, hr, hv⟩ := mem_filterMap.mp h
  exact hfinite r hr v (mem_of_getElem? hv)

theorem fieldValues_eq_nil_iff {f : Nat} :
    fieldValues f recs = [] ↔ ∀ r ∈ recs, ¬ f < r.2.nums.length := by
  simp only [fieldValues, filterMap_eq_nil_iff, getElem?_eq_none_iff, not_lt]

variable {values : List ℚ}

/-- The least value, from a start that is not below any. -/
theorem foldl_min_eq {top : ℚ} (h : ∀ v ∈ values, v ≤ top)
    (hne : values ≠ []) : values.foldl min top = values.min?.getD 0 := by
  obtain ⟨v, values, rfl⟩ := exists_cons_of_ne_nil hne
  rw [foldl_cons, min_eq_right (h v mem_cons_self), min?_cons', Option.getD_some]

theorem foldl_max_eq {bottom : ℚ} (h : ∀ v ∈ values, bottom ≤ v)
    (hne : values ≠ []) : values.foldl max bottom = values.max?.getD 0 := by
  obtain ⟨v, values, rfl⟩ := exists_cons_of_ne_nil hne
  rw [foldl_cons, max_eq_right (h v mem_cons_self), max?_cons', Option.getD_some]

theorem count_collect (recs : Records Value) : (collect recs).count = recs.length :=
  (addAll_spec 0 .start).1.trans (Nat.zero_add _)

theorem sums_collect (f : Fin 7) : (collect recs).sums f = (fieldValues f recs).sum := by
  rw [sum_eq_foldl]
  exact (addAll_spec f .start).2.2.2.1

@[simp] theorem count_finish (res : RangeAggregateResult) : res.finish.count = res.count := by
  unfold RangeAggregateResult.finish
  split_ifs
  · rfl
  · rfl

@[simp] theorem sums_finish (res : RangeAggregateResult) : res.finish.sums = res.sums := by
  unfold RangeAggregateResult.finish
  split_ifs
  · rfl
  · rfl

/-- What is reported after the pass; only the average is over all events. -/
theorem finish_collect (hfinite : ∀ r ∈ recs, r.2.Finite) (f : Fin 7) :
    (collect recs).finish.fields f = !(fieldValues f recs).isEmpty ∧
      (collect recs).finish.avgs f = (fieldValues f recs).sum / recs.length ∧
      (collect recs).finish.mins f = (FieldReport.of (fieldValues f recs)).min ∧
      (collect recs).finish.maxs f = (FieldReport.of (fieldValues f recs)).max := by
  obtain ⟨hcount, havgs, hfields, -, hmins, hmaxs⟩ := @addAll_spec recs f .start
  rw [← collect] at hcount havgs hfields hmins hmaxs
  simp only [RangeAggregateResult.start, Nat.zero_add, Bool.false_or] at hcount havgs hfields
  simp only [RangeAggregateResult.start] at hmins hmaxs
  have hsum : (collect recs).sums f = (fieldValues f recs).sum := sums_collect f
  by_cases hnil : fieldValues f recs = []
  · -- no event carries the field
    rw [hnil] at hfields hsum ⊢
    unfold RangeAggregateResult.finish
    split_ifs with hpos
    · simp [hfields, havgs, FieldReport.of]
    · simp [hfields, havgs, FieldReport.of]
  · have hpos : 0 < (collect recs).count := by
      rw [hcount, length_pos_iff]
      rintro rfl
      exact hnil rfl
    have hfield : (collect recs).fields f = true := by
      rw [hfields]
      simpa using hnil
    have hmin := foldl_min_eq (fun v hv => (le_of_mem_fieldValues hfinite hv).2) hnil
    have hmax := foldl_max_eq (fun v hv => (le_of_mem_fieldValues hfinite hv).1) hnil
    unfold RangeAggregateResult.finish
    rw [if_pos hpos]
    simp only [hfield, if_true, hcount, hsum, hmins, hmaxs, hmin, hmax, FieldReport.of, and_true]
    rw [← hfields, hfield]

end Accumulators

/-! ### The pass -/

section Pass

variable {q : RangeAllQuery} {dims : Nat} {recs : Records Value}

/-- The loop over entries of the timeline, with a budget that is large enough. -/
theorem aggregateLoop_eq (hdims : q.dims.length < dims → ∀ r ∈ recs, r.1.dims.length = dims)
    {scanned : Nat}
    (hbudget : q.maxScanEvents ≤ 0 ∨ (scanned + recs.length : Int) ≤ q.maxScanEvents)
    (res : RangeAggregateResult) :
    aggregateLoop q dims scanned res (recs.map fun r => (r.1.key, r.2)) =
      .ok (addAll res (recs.filter fun r => q.range.keeps dims r.1.readTime)) := by
  induction recs generalizing scanned res with
  | nil => rfl
  | cons r recs ih =>
    rw [length_cons, Nat.cast_add, Nat.cast_one] at hbudget
    have henough : ¬ (0 < q.maxScanEvents ∧ q.maxScanEvents < scanned + 1) := by omega
    have hbudget' : q.maxScanEvents ≤ 0 ∨
        (((scanned + 1 : Nat) : Int) + recs.length) ≤ q.maxScanEvents := by
      omega
    have ih := fun res => ih (fun h r hr => hdims h r (mem_cons_of_mem _ hr)) hbudget' res
    rw [map_cons, aggregateLoop, if_neg henough]
    by_cases hshort : q.dims.length < dims
    · have hread : decodeTimestamp r.1.key dims = some r.1.readTime := by
        rw [← hdims hshort r mem_cons_self, decodeTimestamp_key]
      rw [if_pos hshort, hread]
      simp only
      by_cases hout : r.1.readTime < q.fromTime ∨ q.toTime < r.1.readTime
      · have hkeep : ¬ q.range.keeps dims r.1.readTime := fun h => h ⟨hshort, hout⟩
        rw [if_pos hout, ih, filter_cons_of_neg (by simpa using hkeep)]
      · have hkeep : q.range.keeps dims r.1.readTime := fun h => hout h.2
        rw [if_neg hout, ih, filter_cons_of_pos (by simpa using hkeep)]
        rfl
    · have hkeep : q.range.keeps dims r.1.readTime := fun h => hshort h.1
      rw [if_neg hshort, ih, filter_cons_of_pos (by simpa using hkeep)]
      rfl

/-- Where the time is looked at, a short key is an error. -/
theorem aggregateLoop_of_short (hlead : q.dims.length < dims) {r : Event × Value} (hr : r ∈ recs)
    (hshort : r.1.dims.length < dims) (scanned : Nat) (res : RangeAggregateResult) :
    ∃ err, aggregateLoop q dims scanned res (recs.map fun r => (r.1.key, r.2)) = .error err := by
  induction recs generalizing scanned res with
  | nil => exact absurd hr not_mem_nil
  | cons r' recs ih =>
    rw [map_cons, aggregateLoop]
    by_cases hbudget : 0 < q.maxScanEvents ∧ q.maxScanEvents < scanned + 1
    · exact ⟨.scanLimit, if_pos hbudget⟩
    rw [if_neg hbudget, if_pos hlead]
    rcases hread : decodeTimestamp r'.1.key dims with - | ts
    · exact ⟨.keyShort, rfl⟩
    -- this key is long enough, so the short one comes later
    have hr : r ∈ recs := by
      rcases mem_cons.mp hr with rfl | hr
      · rw [decodeTimestamp_eq_none (by rw [length_key, tsOffset, tsOffset]; omega)] at hread
        cases hread
      · exact hr
    simp only
    split_ifs
    · exact ih hr (scanned + 1) res
    · exact ih hr (scanned + 1) (res.add r'.2.nums)

end Pass

/-! ### Records with other values -/

section Values

variable {recs recs' : Records Value} {f : Nat}

/-- The same number of fields, all one or all zero. -/
def Value.fill (v : Value) (one : Bool) : Value where
  nums := replicate v.nums.length (if one then 1 else 0)
  payload := v.payload
  length_le := (length_replicate ..).trans_le v.length_le

theorem Value.finite_fill (v : Value) (one : Bool) : (v.fill one).Finite := by
  intro x hx
  rw [eq_of_mem_replicate hx]
  cases one with
  | true | false => exact ⟨by decide +kernel, by decide +kernel⟩

/-- One in the fields of one record, zero in all others. -/
def mark (key : Key) (recs : Records Value) : Records Value :=
  recs.map fun r => (r.1, r.2.fill (decide (r.1.key = key)))

theorem sameFields_mark (key : Key) (recs : Records Value) : SameFields (mark key recs) recs := by
  rw [SameFields, mark, map_map]
  exact map_congr_left fun r _ => congrArg _ (length_replicate ..)

theorem inKeyOrder_mark {key : Key} : (mark key recs).InKeyOrder ↔ recs.InKeyOrder := pairwise_map

theorem finite_mark (key : Key) (recs : Records Value) : ∀ r ∈ mark key recs, r.2.Finite := by
  intro r hr
  obtain ⟨r₀, -, rfl⟩ := mem_map.mp hr
  exact r₀.2.finite_fill _

variable {r : Event × Value}

theorem SameFields.exists_mem (h : SameFields recs recs') (hr : r ∈ recs) :
    ∃ r' ∈ recs', r'.1 = r.1 ∧ r'.2.nums.length = r.2.nums.length := by
  have hmem : (r.1, r.2.nums.length) ∈ recs'.map fun r => (r.1, r.2.nums.length) :=
    h ▸ mem_map_of_mem hr
  obtain ⟨r', hr', heq⟩ := mem_map.mp hmem
  rw [Prod.mk.injEq] at heq
  exact ⟨r', hr', heq⟩

theorem SameFields.events (h : SameFields recs recs') : recs.map Prod.fst = recs'.map Prod.fst := by
  have hevents := congrArg (map Prod.fst) h
  rwa [map_map, map_map] at hevents

/-- What a right report needs is about the events and their fields, not the values. -/
theorem SameFields.safe (h : SameFields recs recs') {q : RangeNumQuery} {dims : Nat}
    (hsafe : q.Safe dims recs') : q.Safe dims recs where
  carry hshort r hr := by
    obtain ⟨r', hr', hevent, -⟩ := h.exists_mem hr
    rw [← hevent]
    exact hsafe.carry hshort r' hr'
  same r hr := by
    obtain ⟨r', hr', hevent, hlength⟩ := h.exists_mem hr
    rw [← hevent, ← hlength]
    exact hsafe.same r' hr'
  whole r₁ hr₁ r₂ hr₂ := by
    obtain ⟨r₁', hr₁', hevent₁, hlength₁⟩ := h.exists_mem hr₁
    obtain ⟨r₂', hr₂', hevent₂, hlength₂⟩ := h.exists_mem hr₂
    rw [← hevent₁, ← hlength₁, ← hevent₂, ← hlength₂]
    exact hsafe.whole r₁' hr₁' r₂' hr₂'

theorem fieldValues_append (recs recs' : Records Value) :
    fieldValues f (recs ++ recs') = fieldValues f recs ++ fieldValues f recs' :=
  filterMap_append

/-- The records without the field do not matter. -/
theorem fieldValues_filter_congr {p p' : Event × Value → Prop} [DecidablePred p]
    [DecidablePred p'] (h : ∀ r ∈ recs, f < r.2.nums.length → (p r ↔ p' r)) :
    fieldValues f (recs.filter fun r => p r) = fieldValues f (recs.filter fun r => p' r) := by
  unfold fieldValues
  rw [filterMap_filter, filterMap_filter]
  refine filterMap_congr fun r hr => ?_
  by_cases hf : f < r.2.nums.length
  · simp only [h r hr hf]
  · simp [getElem?_eq_none_iff.mpr (not_lt.mp hf)]

/-- There are as many values as records if and only if all of them carry the field. -/
theorem length_fieldValues_eq_iff :
    (fieldValues f recs).length = recs.length ↔ ∀ r ∈ recs, f < r.2.nums.length := by
  rw [fieldValues, length_filterMap_eq_countP, countP_eq_length]
  simp

variable {key : Key} {p : Event → Prop} [DecidablePred p]

theorem sum_mark_of_ne (h : ∀ r ∈ recs, r.1.key ≠ key) :
    (fieldValues f ((mark key recs).filter fun r => p r.1)).sum = 0 := by
  refine sum_eq_zero fun x hx => ?_
  obtain ⟨r, hr, hvalue⟩ := mem_filterMap.mp hx
  obtain ⟨r₀, hr₀, rfl⟩ := mem_map.mp (mem_of_mem_filter hr)
  have hfill := eq_of_mem_replicate (mem_of_getElem? hvalue)
  rw [hfill, decide_eq_false (h r₀ hr₀)]
  rfl

/-- The sum over some records tells whether the marked one is among them. -/
theorem sum_mark (hsorted : recs.InKeyOrder) (hr : r ∈ recs) (hf : f < r.2.nums.length) :
    (fieldValues f ((mark r.1.key recs).filter fun r => p r.1)).sum = if p r.1 then 1 else 0 := by
  obtain ⟨before, after, rfl⟩ := append_of_mem hr
  obtain ⟨-, hafter, hbefore⟩ := pairwise_append.mp hsorted
  have hzero₁ : (fieldValues f ((mark r.1.key before).filter fun r => p r.1)).sum = 0 :=
    sum_mark_of_ne fun r' hr' => (hbefore r' hr' r mem_cons_self).ne
  have hzero₂ : (fieldValues f ((mark r.1.key after).filter fun r => p r.1)).sum = 0 :=
    sum_mark_of_ne fun r' hr' => ((pairwise_cons.mp hafter).1 r' hr').ne'
  have hone : (r.2.fill true).nums[f]? = some 1 := by
    rw [Value.fill, getElem?_replicate, if_pos hf]
    rfl
  rw [mark, map_append, map_cons, filter_append, fieldValues_append, sum_append,
    ← mark, hzero₁, zero_add, filter_cons]
  simp only [decide_eq_true_eq, decide_true]
  split_ifs
  · rw [fieldValues_cons, sum_append, ← mark, hzero₂, add_zero, hone]
    simp
  · rw [← mark, hzero₂]

/-- Sums that agree tell that the marked record is among both or none. -/
theorem iff_of_sum_mark {q : Event → Prop} [DecidablePred q]
    (hsorted : recs.InKeyOrder) (hr : r ∈ recs) (hf : f < r.2.nums.length)
    (hsum : (fieldValues f ((mark r.1.key recs).filter fun r => p r.1)).sum =
      (fieldValues f ((mark r.1.key recs).filter fun r => q r.1)).sum) : p r.1 ↔ q r.1 := by
  rw [sum_mark hsorted hr hf, sum_mark hsorted hr hf] at hsum
  by_contra hne
  by_cases hp : p r.1
  · rw [if_pos hp, if_neg fun hp' => hne (iff_of_true hp hp')] at hsum
    exact one_ne_zero hsum
  · rw [if_neg hp, if_pos (by tauto)] at hsum
    exact zero_ne_one hsum

end Values

/-! ### Exact reports -/

namespace PebbleStore

variable {s : PebbleStore Value} {recs : Records Value} {q : RangeNumQuery} {dims : Nat}

/-- The store with these records. -/
def withRecords {V : Type} (s : PebbleStore V) (recs : Records V)
    (h : recs.InKeyOrder) : PebbleStore V :=
  { s with db := ⟨recs.map fun r => (r.1.key, r.2), pairwise_map.mpr h⟩ }

/-- The query is not refused. -/
structure Accepts (s : PebbleStore Value) (q : RangeNumQuery) (dims : Nat) : Prop where
  registry : s.registry q.timeline = some dims
  dims_pos : 1 ≤ q.dims.length
  dims_le : q.dims.length ≤ dims
  fromTime : 0 ≤ q.fromTime
  toTime : 0 ≤ q.toTime

/-- The pass does not run out of its budget. -/
def Affords (q : RangeNumQuery) (dims : Nat) (recs : Records Value) : Prop :=
  q.maxScanEvents ≤ 0 ∨ ((recs.filter fun r => q.Bounds dims r.1).length : Int) ≤ q.maxScanEvents

theorem Accepts.congr {s' : PebbleStore Value} (ha : Accepts s q dims)
    (h : s'.registry = s.registry) : Accepts s' q dims :=
  { ha with registry := h ▸ ha.registry }

theorem rangeAggregate_eq (ha : Accepts s q dims) (h : Holds s recs) :
    s.rangeAggregate q.toAll =
      match aggregateLoop q.toAll dims 0 .start
        ((recs.filter fun r => q.Bounds dims r.1).map fun r => (r.1.key, r.2)) with
      | .error err => .error err
      | .ok res => .ok res.finish := by
  obtain ⟨hreg, hdims, hdims', hfrom, hto⟩ := ha
  have hdims : ¬ (q.dims.length < 1 ∨ dims < q.dims.length) := by omega
  have hbounds : rangeBounds q.timeline dims q.dims q.fromTime q.toTime = _ :=
    rangeBounds_eq hdims' hfrom hto
  unfold rangeAggregate
  simp only [RangeNumQuery.toAll, hreg, hbounds, h.scan_eq]
  exact if_neg hdims

/-- Without a short key the pass collects the records it reads. -/
theorem Holds.rangeAggregate_collect (h : Holds s recs) (ha : Accepts s q dims)
    (hbudget : Affords q dims recs)
    (hcarry : q.dims.length < dims → ∀ r ∈ recs, q.Bounds dims r.1 → r.1.timeline = q.timeline) :
    s.rangeAggregate q.toAll = .ok (collect (recs.filter fun r => q.Reads dims r.1)).finish := by
  rw [rangeAggregate_eq ha h, aggregateLoop_eq]
  · simp only [filter_filter]
    refine congrArg (fun l => Except.ok (collect l).finish) (filter_congr fun r _ => ?_)
    rw [Bool.eq_iff_iff, Bool.and_eq_true, decide_eq_true_iff, decide_eq_true_iff,
      decide_eq_true_iff, and_comm, RangeNumQuery.Reads]
  · intro hshort r hr
    obtain ⟨hr, hin⟩ := mem_filter.mp hr
    refine Option.some.inj ?_
    rw [← h.registered r hr, hcarry hshort r hr (decide_eq_true_iff.mp hin), ha.registry]
  · rw [Nat.cast_zero, zero_add]
    exact hbudget

theorem rangeNum_eq {α : Type} {pick : RangeAggregateResult → Fin 7 → α}
    {res : RangeAggregateResult} (hfield : q.numField < 7)
    (h : s.rangeAggregate q.toAll = .ok res) :
    rangeNum pick s q = .ok (pick res ⟨q.numField, hfield⟩) := by
  have hfield : ¬ 6 < q.numField := by omega
  rw [rangeNum, dif_neg hfield]
  simp only [h]

/-- What is reported after a pass over some records. -/
theorem exact_iff_of_collect (hfield : q.numField < 7) {read : Records Value}
    (hfinite : ∀ r ∈ read, r.2.Finite) (h : s.rangeAggregate q.toAll = .ok (collect read).finish) :
    q.Exact s recs ↔
      (FieldReport.of (fieldValues q.numField read)).sum = (q.answer recs).sum ∧
        (fieldValues q.numField read).sum / read.length = (q.answer recs).avg ∧
        (FieldReport.of (fieldValues q.numField read)).min = (q.answer recs).min ∧
        (FieldReport.of (fieldValues q.numField read)).max = (q.answer recs).max ∧
        (if fieldValues q.numField read = [] then 0 else read.length) = (q.answer recs).count := by
  obtain ⟨hfields, havgs, hmins, hmaxs⟩ := finish_collect hfinite ⟨q.numField, hfield⟩
  have hcounted : (if (collect read).finish.fields ⟨q.numField, hfield⟩
      then (collect read).finish.count else 0) =
        if fieldValues q.numField read = [] then 0 else read.length := by
    rw [hfields, count_finish, count_collect]
    by_cases hnil : fieldValues q.numField read = []
    · simp [hnil]
    · simp [hnil]
  rw [RangeNumQuery.Exact, rangeAvg, rangeCount, rangeNum_eq hfield h, rangeNum_eq hfield h,
    Except.ok.injEq, Except.ok.injEq, hcounted]
  simp only [h, Except.ok.injEq, exists_eq_left', exists_prop_of_true hfield,
    RangeAggregateResult.Reports, sums_finish, sums_collect, havgs, hmins, hmaxs, FieldReport.of]
  tauto

/-- A safe query is exact. -/
theorem Holds.exact_of_safe (h : Holds s recs) (hfinite : ∀ r ∈ recs, r.2.Finite)
    (ha : Accepts s q dims) (hfield : q.numField ≤ 6) (hbudget : Affords q dims recs)
    (hsafe : q.Safe dims recs) : q.Exact s recs := by
  have hcollect := h.rangeAggregate_collect ha hbudget hsafe.carry
  have hvalues : fieldValues q.numField (recs.filter fun r => q.Selects r.1.stored) =
      fieldValues q.numField (recs.filter fun r => q.Reads dims r.1) :=
    (fieldValues_filter_congr hsafe.same).symm
  have hread : ∀ r ∈ recs.filter fun r => q.Reads dims r.1, r.2.Finite := fun r hr =>
    hfinite r (mem_of_mem_filter hr)
  rw [exact_iff_of_collect (by omega) hread hcollect, RangeNumQuery.answer, hvalues]
  by_cases hnil : fieldValues q.numField (recs.filter fun r => q.Reads dims r.1) = []
  · rw [hnil]
    simp [FieldReport.of]
  · -- one of the records carries the field, and so do all
    obtain ⟨r, hr, hcarries⟩ : ∃ r ∈ recs.filter fun r => q.Reads dims r.1,
        q.numField < r.2.nums.length := by
      by_contra hnone
      exact hnil (fieldValues_eq_nil_iff.mpr fun r hr hf => hnone ⟨r, hr, hf⟩)
    have hall : ∀ r' ∈ recs.filter fun r => q.Reads dims r.1, q.numField < r'.2.nums.length := by
      intro r' hr'
      obtain ⟨hr, hread⟩ := mem_filter.mp hr
      obtain ⟨hr', hread'⟩ := mem_filter.mp hr'
      exact hsafe.whole r hr r' hr' (decide_eq_true_iff.mp hread) (decide_eq_true_iff.mp hread')
        hcarries
    have hlength := length_fieldValues_eq_iff.mpr hall
    rw [if_neg hnil]
    simp [FieldReport.of, hlength]

variable {recs' : Records Value}

theorem Holds.withEvents (h : Holds s recs) (hsorted : recs'.InKeyOrder)
    (hevents : recs'.map Prod.fst = recs.map Prod.fst) :
    Holds (s.withRecords recs' hsorted) recs' := by
  have hmem : ∀ r ∈ recs', ∃ r₀ ∈ recs, r₀.1 = r.1 := by
    intro r hr
    exact mem_map.mp (hevents ▸ mem_map.mpr ⟨r, hr, rfl⟩)
  refine ⟨rfl, fun r hr => ?_, fun r hr => ?_⟩
  · obtain ⟨r₀, hr₀, heq⟩ := hmem r hr
    exact heq ▸ h.registered r₀ hr₀
  · obtain ⟨r₀, hr₀, heq⟩ := hmem r hr
    exact heq ▸ h.epoch r₀ hr₀

/-- The number of entries between the bounds does not depend on the values. -/
theorem Affords.congr (hbudget : Affords q dims recs)
    (h : SameFields recs' recs) : Affords q dims recs' := by
  have hcount : ∀ l : Records Value, (l.filter fun r => q.Bounds dims r.1).length =
      ((l.map Prod.fst).filter fun e => q.Bounds dims e).length := by
    intro l
    rw [filter_map, length_map]
    rfl
  rwa [Affords, hcount, h.events, ← hcount]

/-- A query that is exact for all values is safe. -/
theorem Holds.safe_of_exact (h : Holds s recs) (hfinite : ∀ r ∈ recs, r.2.Finite)
    (ha : Accepts s q dims) (hfield : q.numField ≤ 6) (hbudget : Affords q dims recs)
    (hexact : ∀ (s' : PebbleStore Value) (recs' : Records Value),
      s'.registry = s.registry → Holds s' recs' → (∀ r ∈ recs', r.2.Finite) →
      SameFields recs' recs → q.Exact s' recs') : q.Safe dims recs := by
  have hown := hexact s recs rfl h hfinite rfl
  have hcarry : q.dims.length < dims → ∀ r ∈ recs, q.Bounds dims r.1 →
      r.1.timeline = q.timeline := by
    -- a short key is an error
    intro hlead r hr hin
    by_contra hne
    have hshort := ((inRange_other_iff hne ha.dims_le).mp hin).2.2.1
    have hmem : r ∈ recs.filter fun r => q.Bounds dims r.1 :=
      mem_filter.mpr ⟨hr, decide_eq_true hin⟩
    obtain ⟨err, herr⟩ := aggregateLoop_of_short (q := q.toAll) hlead hmem hshort 0 .start
    obtain ⟨⟨-, res, hres, -⟩, -⟩ := hown
    rw [rangeAggregate_eq ha h, herr] at hres
    cases hres
  have hcollect : ∀ {s' : PebbleStore Value} {recs' : Records Value},
      Holds s' recs' → s'.registry = s.registry → SameFields recs' recs →
      s'.rangeAggregate q.toAll =
        .ok (collect (recs'.filter fun r => q.Reads dims r.1)).finish := by
    intro s' recs' h' hreg' hsame
    refine h'.rangeAggregate_collect (ha.congr hreg') (hbudget.congr hsame) fun hshort r hr => ?_
    obtain ⟨r', hr', hevent, -⟩ := hsame.exists_mem hr
    rw [← hevent]
    exact hcarry hshort r' hr'
  have hfiltered : ∀ {recs' : Records Value}, (∀ r ∈ recs', r.2.Finite) →
      ∀ r ∈ recs'.filter fun r => q.Reads dims r.1, r.2.Finite := fun hfinite' r hr =>
    hfinite' r (mem_of_mem_filter hr)
  have hsame : ∀ r ∈ recs, q.numField < r.2.nums.length →
      (q.Reads dims r.1 ↔ q.Selects r.1.stored) := by
    -- the sums are over the marked record or not
    intro r hr hf
    have hmark := sameFields_mark r.1.key recs
    have hmarked := h.withEvents (inKeyOrder_mark.mpr h.pairwise) hmark.events
    have hfinite' := finite_mark r.1.key recs
    have hright := hexact (s.withRecords _ _) _ rfl hmarked hfinite' hmark
    have hsum := ((exact_iff_of_collect (by omega) (hfiltered hfinite')
      (hcollect hmarked rfl hmark)).mp hright).1
    exact iff_of_sum_mark (q := fun e => q.Selects e.stored) h.pairwise hr hf hsum
  refine ⟨hcarry, hsame, fun r hr r' hr' hread hread' hf => ?_⟩
  -- the count is that of the values only if all records read carry the field
  obtain ⟨-, -, -, -, hcount⟩ :=
    (exact_iff_of_collect (by omega) (hfiltered hfinite) (hcollect h rfl rfl)).mp hown
  have hne : fieldValues q.numField (recs.filter fun r => q.Reads dims r.1) ≠ [] := fun hnil =>
    fieldValues_eq_nil_iff.mp hnil r (mem_filter.mpr ⟨hr, decide_eq_true hread⟩) hf
  rw [if_neg hne, RangeNumQuery.answer, ← fieldValues_filter_congr hsame] at hcount
  exact length_fieldValues_eq_iff.mp hcount.symm r' (mem_filter.mpr ⟨hr', decide_eq_true hread'⟩)

/-- **The report for a field is right**, for all values, if and only if the query is safe.  The
hypotheses are those the query is refused without. -/
theorem rangeAggregate_exact_iff (h : Holds s recs) (hreg : s.registry q.timeline = some dims)
    (hdims : 1 ≤ q.dims.length) (hdims' : q.dims.length ≤ dims) (hfield : q.numField ≤ 6)
    (hfrom : 0 ≤ q.fromTime) (hto : 0 ≤ q.toTime) (hbudget : q.maxScanEvents ≤ 0 ∨
      ((recs.filter fun r => q.Bounds dims r.1).length : Int) ≤ q.maxScanEvents) :
    (∀ (s' : PebbleStore Value) (recs' : Records Value), s'.registry = s.registry →
      Holds s' recs' → (∀ r ∈ recs', r.2.Finite) → SameFields recs' recs → q.Exact s' recs') ↔
      q.Safe dims recs := by
  have ha : Accepts s q dims := ⟨hreg, hdims, hdims', hfrom, hto⟩
  have hbudget : Affords q dims recs := hbudget
  constructor
  · intro hexact
    -- it is enough to look at values in the range
    have hzeros := sameFields_mark [] recs
    have hmarked := h.withEvents (inKeyOrder_mark.mpr h.pairwise) hzeros.events
    refine SameFields.safe hzeros.symm (hmarked.safe_of_exact (finite_mark [] recs) (ha.congr rfl)
      hfield (hbudget.congr hzeros) fun s' recs' hregistry h' hfinite' hsame => ?_)
    exact hexact s' recs' hregistry h' hfinite' (hsame.trans hzeros)
  · intro hsafe s' recs' hregistry h' hfinite' hsame
    exact h'.exact_of_safe hfinite' (ha.congr hregistry) hfield (hbudget.congr hsame)
      (hsame.safe hsafe)

/-- For a range and events up to the year 2262 it is only the fields that matter. -/
theorem Holds.safe_iff (h : Holds s recs) (hreg : s.registry q.timeline = some dims)
    (hdims' : q.dims.length ≤ dims) (hfrom : 0 ≤ q.fromTime)
    (hfrom' : q.fromTime < 2 ^ 63) (hto : 0 ≤ q.toTime)
    (hto' : q.toTime < 2 ^ 63) (hmax : ∀ r ∈ recs, r.1.time < 2 ^ 63) :
    q.Safe dims recs ↔ ∀ r ∈ recs, ∀ r' ∈ recs, q.Selects r.1 → q.Selects r'.1 →
      q.numField < r.2.nums.length → q.numField < r'.2.nums.length := by
  have hown : ∀ r ∈ recs, q.Bounds dims r.1 → r.1.timeline = q.timeline := by
    intro r _ hin
    by_contra hne
    have hstop := stampOf_eq hto hto'
    have hcarry := ((inRange_other_iff hne hdims').mp hin).1.2
    omega
  have hreads : ∀ r ∈ recs, q.Reads dims r.1 ↔ q.Selects r.1 := by
    intro r hr
    by_cases hid : r.1.timeline = q.timeline
    · have hfaithful : q.toAll.range.Faithful dims :=
        RangeQuery.faithful_of_le dims hfrom hfrom' hto hto'
      exact h.selects_iff (q := q.toAll.range) hreg hdims' hfaithful hr (hmax r hr) hid
    · exact iff_of_false (fun hread => hid (hown r hr hread.1)) fun hsel => hid hsel.1
  constructor
  · intro hsafe r hr r' hr' hsel hsel'
    exact hsafe.whole r hr r' hr' ((hreads r hr).mpr hsel) ((hreads r' hr').mpr hsel')
  · intro hwhole
    refine ⟨fun _ => hown, fun r hr _ => ?_, fun r hr r' hr' hread hread' => ?_⟩
    · rw [Event.stored_eq (h.epoch r hr) (hmax r hr)]
      exact hreads r hr
    · exact hwhole r hr r' hr' ((hreads r hr).mp hread) ((hreads r' hr').mp hread')

/-- Timeline 1 has one dimension. -/
def oneTimeline (id : UInt32) : Option Nat := if id = 1 then some 1 else none

theorem oneTimeline_zero : oneTimeline 0 = none := rfl

/-- The temperatures of a sensor, the second time without a humidity. -/
def sensor : PebbleStore Value :=
  Runs.run step (init oneTimeline oneTimeline_zero)
    [.append ⟨1, [7], 10⟩ ⟨[20, 6], [], by decide⟩, .append ⟨1, [7], 20⟩ ⟨[10], [], by decide⟩]

/-- Its records. -/
def sensorRecords : Records Value :=
  [(⟨1, [7], 10⟩, ⟨[20, 6], [], by decide⟩), (⟨1, [7], 20⟩, ⟨[10], [], by decide⟩)]

theorem holds_sensor : Holds sensor sensorRecords :=
  ⟨by decide +kernel, by decide +kernel, by decide +kernel⟩

theorem finite_sensor : ∀ r ∈ sensorRecords, r.2.Finite := by
  unfold Value.Finite
  decide +kernel

/-- The temperatures are reported right. -/
theorem rangeAggregate_sensor : RangeNumQuery.Exact ⟨1, [7], 0, 100, 0, 0⟩ sensor sensorRecords :=
  (rangeAggregate_exact_iff holds_sensor (show _ = some 1 from rfl) (by decide) (by decide)
    (by decide) (by decide) (by decide) (.inl (by decide))).mpr
    ((holds_sensor.safe_iff rfl (by decide) (by decide) (by decide) (by decide) (by decide)
      (by decide +kernel)).mpr (by decide +kernel)) sensor sensorRecords rfl holds_sensor
    finite_sensor rfl

/-- The humidity is reported for two events instead of one, and its average is half of it. -/
theorem rangeAggregate_counts_other_events : Holds sensor sensorRecords ∧
      sensor.rangeCount ⟨1, [7], 0, 100, 1, 0⟩ = .ok 2 ∧
      sensor.rangeAvg ⟨1, [7], 0, 100, 1, 0⟩ = .ok 3 ∧
      fieldValues 1 sensorRecords = [6] ∧
      ¬ RangeNumQuery.Exact ⟨1, [7], 0, 100, 1, 0⟩ sensor sensorRecords := by
  have hcount : sensor.rangeCount ⟨1, [7], 0, 100, 1, 0⟩ = .ok 2 := by decide +kernel
  refine ⟨holds_sensor, hcount, by decide +kernel, by decide +kernel, fun hexact => ?_⟩
  have hanswer : (RangeNumQuery.answer ⟨1, [7], 0, 100, 1, 0⟩ sensorRecords).count = 1 := by
    decide +kernel
  cases hexact.2.2

end PebbleStore

end Xolu.Timeseries
