/-
# Running a rollup (pkg/timeseries/rollup.go)

`RunRollup` goes over the buckets of a window and writes for each the aggregate of its source
events, as one event of the destination at the end of the bucket, in the series of zeros.  With
cascade it then runs the rollups below in the same way.

The aggregate is that of `RangeAggregate` over the series of zeros, with both ends of the bucket
included.  What a run over the buckets leaves in the destination is `runBuckets_eq`.
-/
import Xolu.Timeseries.Aggregate
import Xolu.Timeseries.RollupRegistry

namespace Xolu.Timeseries

open List BigEndian Num64 PebbleStore Nat

/-- The zero time, in nanoseconds since the epoch: the first of January of the year 1. -/
def zeroTime : Int := -62135596800000000000

/-- `Truncate` to a duration since the zero time. -/
def truncate (ts dur : Int) : Int := if dur ≤ 0 then ts else ts - (ts - zeroTime) % dur

/-- The errors of a run. -/
inductive RunError where
  /-- ErrTSRootTimeline. -/
  | rootTimeline
  /-- ErrTSRollupNotFound. -/
  | notFound (id : String) (source : UInt32)
  | sourceNotDefined (id : UInt32)
  | destNotDefined (id : UInt32)
  | aggregate (err : QueryError)
  | append (err : TsError)
  /-- An error in a bucket of a rollup below. -/
  | cascade (id : String) (bucket : Int) (err : RunError)
deriving DecidableEq, Repr

/-- The error is one of a rollup below. -/
def RunError.isCascade : RunError → Bool
  | .cascade .. => true
  | _ => false

/-- The numbers of a rollup event. -/
def rollupNums (res : RangeAggregateResult) : List ℚ :=
  [res.avgs 0, res.mins 0, res.maxs 0, res.sums 0, res.count, res.avgs 1, res.avgs 2]

/-- What a rollup event carries. -/
def rollupValue (res : RangeAggregateResult) : Value := ⟨rollupNums res, [], le_rfl⟩

/-- The rollup event at the end of a bucket. -/
def rollupEvent (d : RollupDef) (dims : Nat) (toTime : Int) : Event :=
  ⟨d.destTID, replicate dims 0, toTime⟩

def runBucket (s : PebbleStore Value) (d : RollupDef) (fromTime toTime : Int) :
    Except RunError (PebbleStore Value) :=
  match s.registry d.sourceTID with
  | none => .error (.sourceNotDefined d.sourceTID)
  | some dims =>
    match s.registry d.destTID with
    | none => .error (.destNotDefined d.destTID)
    | some _ =>
      match s.rangeAggregate ⟨d.sourceTID, replicate dims 0, fromTime, toTime, 0⟩ with
      | .error err => .error (.aggregate err)
      | .ok res =>
        if res.count = 0 then .ok s
        else
          match s.append (rollupEvent d dims toTime) (rollupValue res) with
          | .error err => .error (.append err)
          | .ok s' => .ok s'

/-- The loop over so many buckets, with the bucket and the error it stops at. -/
def runBuckets (d : RollupDef) :
    Nat → Int → PebbleStore Value → PebbleStore Value × Option (Int × RunError)
  | 0, _, s => (s, none)
  | n + 1, t, s =>
    match runBucket s d t (t + d.bucketDuration) with
    | .error err => (s, some (t, err))
    | .ok s' => runBuckets d n (t + d.bucketDuration) s'

/-- The number of buckets between two ends of buckets. -/
def bucketCount (d : RollupDef) (fromTime toTime : Int) : Nat :=
  ((toTime - fromTime) / d.bucketDuration).toNat

/-- The buckets that cover a window: its start is moved down and its end up to a bucket. -/
def runWindow (s : PebbleStore Value) (d : RollupDef) (fromTime toTime : Int) :
    PebbleStore Value × Option (Int × RunError) :=
  let bucketFrom := truncate fromTime d.bucketDuration
  let bucketTo := truncate toTime d.bucketDuration
  let bucketTo := if bucketTo < toTime then bucketTo + d.bucketDuration else bucketTo
  runBuckets d (bucketCount d bucketFrom bucketTo) bucketFrom s

/-- The loop over the rollups below. -/
def runCascade (fromTime toTime : Int) :
    List RollupDef → PebbleStore Value → PebbleStore Value × Option RunError
  | [], s => (s, none)
  | d :: rest, s =>
    match runWindow s d fromTime toTime with
    | (s', some (t, err)) => (s', some (.cascade d.id t err))
    | (s', none) => runCascade fromTime toTime rest s'

/-- `RunRollup` at a time; the worker it starts is left out.  Without a window it is the bucket
closed last. -/
def RollupStore.runRollup (s : RollupStore Value) (source : UInt32) (id : String)
    (fromTime toTime : Int) (cascade : Bool) (now : Int) :
    RollupStore Value × Option RunError :=
  if source = 0 then (s, some .rootTimeline)
  else
    match s.defs.find? fun d => d.id = id with
    | none => (s, some (.notFound id source))
    | some d =>
      if d.sourceTID ≠ source then (s, some (.notFound id source))
      else
        let noWindow := decide (fromTime = zeroTime ∧ toTime = zeroTime)
        let toTime := if noWindow then truncate now d.bucketDuration else toTime
        let fromTime := if noWindow then toTime - d.bucketDuration else fromTime
        match runWindow s.store d fromTime toTime with
        | (store, some (_, err)) => ({ s with store }, some err)
        | (store, none) =>
          if ¬ cascade then ({ s with store }, none)
          else
            let (store, err) := runCascade fromTime toTime (descendants s.defs d.destTID) store
            ({ s with store }, err)

/-! ### What a run is for -/

section Spec

variable {V : Type}

section

variable (d : RollupDef)

/-- The start of a bucket of the window. -/
def bucketStart (fromTime : Int) (i : Nat) : Int := fromTime + i * d.bucketDuration

/-- The stored event is a source event of the bucket. -/
def InBucket (b : Int) (e : Event) : Prop :=
  e.timeline = d.sourceTID ∧ b ≤ e.readTime ∧ e.readTime < b + d.bucketDuration
deriving Decidable

/-- The records of a bucket. -/
def bucketRecords (b : Int) (recs : Records V) : Records V := recs.filter fun r => InBucket d b r.1

/-- The source records of a window. -/
def windowRecords (fromTime toTime : Int) (recs : Records V) : Records V :=
  recs.filter fun r => r.1.timeline = d.sourceTID ∧ fromTime ≤ r.1.readTime ∧ r.1.readTime < toTime

/-- The aggregate of a bucket, if there is something to aggregate. -/
def bucketValue (b : Int) (recs : Records Value) : Option Value :=
  if bucketRecords d b recs = [] then none
  else some (rollupValue (collect (bucketRecords d b recs)).finish)

/-- The key of the rollup event of a bucket. -/
def bucketKey (dims : Nat) (b : Int) : Key := (rollupEvent d dims (b + d.bucketDuration)).key

/-- The count in the rollup event of a bucket that has records. -/
def countAt (dims : Nat) (b : Int) (recs : Records Value) (s : PebbleStore Value) : ℚ :=
  if bucketRecords d b recs = [] then 0
  else ((s.db.get (bucketKey d dims b)).bind fun v => v.nums[4]?).getD 0

end

/-- The run writes, for every bucket of the window, the aggregate of its records, and nothing for a
bucket without records; the counts sum up to the source events of the window. -/
structure RollsUp (d : RollupDef) (dims : Nat) (fromTime toTime : Int)
    (recs : Records Value) (s : PebbleStore Value)
    (result : RollupStore Value × Option RunError) : Prop where
  own : ∀ err, result.2 = some err → err.isCascade
  written : ∀ i < bucketCount d fromTime toTime,
    result.1.store.db.get (bucketKey d dims (bucketStart d fromTime i)) =
      (bucketValue d (bucketStart d fromTime i) recs).or
        (s.db.get (bucketKey d dims (bucketStart d fromTime i)))
  counts : ((range (bucketCount d fromTime toTime)).map fun i =>
      countAt d dims (bucketStart d fromTime i) recs result.1.store).sum =
    (windowRecords d fromTime toTime recs).length

/-- The range of a bucket, as it is read. -/
def bucketQuery (d : RollupDef) (dims : Nat) (b : Int) : RangeNumQuery :=
  ⟨d.sourceTID, replicate dims 0, b, b + d.bucketDuration, 0, 0⟩

/-- The event is aggregated in the bucket. -/
def ReadsBucket (d : RollupDef) (dims : Nat) (b : Int) (e : Event) : Prop :=
  (bucketQuery d dims b).Bounds dims e
deriving Decidable

/-- What a run needs: a window from the epoch on, in every bucket the right events between the
bounds, and a destination with the dimensions of the source if there is something to write. -/
structure Rollable (d : RollupDef) (dims destDims : Nat) (fromTime toTime : Int)
    (recs : Records V) : Prop where
  epoch : fromTime < toTime → 0 ≤ fromTime
  same : ∀ i < bucketCount d fromTime toTime, ∀ r ∈ recs,
    (ReadsBucket d dims (bucketStart d fromTime i) r.1 ↔ InBucket d (bucketStart d fromTime i) r.1)
  dims : (∃ i < bucketCount d fromTime toTime, ∃ r ∈ recs,
    InBucket d (bucketStart d fromTime i) r.1) → destDims = dims

/-- It depends on the events alone. -/
theorem Rollable.congr {d : RollupDef} {dims destDims : Nat} {fromTime toTime : Int}
    {recs recs' : Records V} (h : Rollable d dims destDims fromTime toTime recs)
    (hevents : recs.map Prod.fst = recs'.map Prod.fst) :
    Rollable d dims destDims fromTime toTime recs' := by
  have hmem : ∀ r ∈ recs', ∃ r₀ ∈ recs, r₀.1 = r.1 := by
    intro r hr
    exact mem_map.mp (hevents ▸ mem_map.mpr ⟨r, hr, rfl⟩)
  refine ⟨h.epoch, fun i hi r hr => ?_, ?_⟩
  · obtain ⟨r₀, hr₀, heq⟩ := hmem r hr
    exact heq ▸ h.same i hi r₀ hr₀
  · rintro ⟨i, hi, r, hr, hin⟩
    obtain ⟨r₀, hr₀, heq⟩ := hmem r hr
    exact h.dims ⟨i, hi, r₀, hr₀, heq ▸ hin⟩

end Spec

/-! ### One bucket -/

section Bucket

variable {V : Type} {d : RollupDef} {dims destDims : Nat} {b b' : Int} {e e' : Event}

theorem timeline_eq_of_key_eq (h : e.key = e'.key) : e.timeline = e'.timeline := by
  have hbytes := congrArg (take 4) h
  exact encode_timeline_inj.mp hbytes

theorem stampOf_eq_emod (ts : Int) : (stampOf ts : Int) = ts % 18446744073709551616 := by
  unfold stampOf unixNano uint64 wrap
  omega

/-- Two buckets with one key are read in the same way. -/
theorem readsBucket_congr (h : bucketKey d dims b = bucketKey d dims b') :
    ReadsBucket d dims b e ↔ ReadsBucket d dims b' e := by
  have hstop : stampOf (b + d.bucketDuration) = stampOf (b' + d.bucketDuration) := by
    have hbytes := append_cancel_left h
    exact (encode_inj (stampOf_lt _) (stampOf_lt _)).mp hbytes
  have hstart : stampOf b = stampOf b' := by
    have h₁ := stampOf_eq_emod b
    have h₂ := stampOf_eq_emod b'
    have h₃ := stampOf_eq_emod (b + d.bucketDuration)
    have h₄ := stampOf_eq_emod (b' + d.bucketDuration)
    omega
  have hlow : ∀ tid dv, (rangeStart tid dims dv b).key = (rangeStart tid dims dv b').key := by
    intro tid dv
    exact congrArg (fun n => encodePrefixKey tid (padDims dv dims 0) ++ encode 8 n) hstart
  have hhigh : ∀ tid dv, (rangeStop tid dims dv (b + d.bucketDuration)).key =
      (rangeStop tid dims dv (b' + d.bucketDuration)).key := by
    intro tid dv
    exact congrArg (fun n => encodePrefixKey tid (padDims dv dims maxDim) ++ encode 8 n) hstop
  unfold ReadsBucket RangeNumQuery.Bounds bucketQuery
  rw [hlow, hhigh]

/-- Nothing of another timeline is read. -/
theorem not_readsBucket (hdims : 1 ≤ dims) (hne : e.timeline ≠ d.sourceTID) :
    ¬ ReadsBucket d dims b e := by
  intro hread
  have hlength : (bucketQuery d dims b).dims.length ≤ dims := (length_replicate ..).le
  have hlast := ((inRange_other_iff hne hlength).mp hread).1.1 0 (mem_replicate.mpr ⟨by omega, rfl⟩)
  exact absurd hlast (by decide)

/-- Of the source the series of zeros is read, from the start of the bucket up to its end. -/
theorem readsBucket_iff (hlength : e.dims.length = dims) (hid : e.timeline = d.sourceTID) :
    ReadsBucket d dims b e ↔ e.dims = replicate dims 0 ∧ stampOf b ≤ e.stamp ∧
      e.stamp ≤ stampOf (b + d.bucketDuration) := by
  have hzeros : (replicate dims (0 : UInt64)).length = dims := length_replicate ..
  have hpad : ∀ v, padDims (replicate dims 0) dims v = replicate dims 0 := by
    intro v
    have := padDims_self (replicate dims 0) v
    rwa [hzeros] at this
  have hwhole : replicate dims 0 <+: e.dims ↔ e.dims = replicate dims 0 :=
    ⟨fun hp => (hp.eq_of_length (hzeros.trans hlength.symm)).symm,
      fun heq => heq ▸ prefix_rfl⟩
  have hrange := @inRange_iff e (replicate dims 0) dims b (b + d.bucketDuration) hlength hzeros.le
  rw [hpad, hpad, hwhole, hid] at hrange
  refine hrange.trans ?_
  constructor
  · rintro ⟨heq, hlow, hhigh⟩
    exact ⟨heq, hlow heq, hhigh heq⟩
  · rintro ⟨heq, hlow, hhigh⟩
    exact ⟨heq, fun _ => hlow, fun _ => hhigh⟩

/-- The records that are aggregated in a bucket. -/
def readRecords (d : RollupDef) (dims : Nat) (b : Int) (recs : Records V) :
    Records V := recs.filter fun r => ReadsBucket d dims b r.1

/-- What is written for a bucket. -/
def readValue (d : RollupDef) (dims : Nat) (b : Int) (recs : Records Value) : Option Value :=
  if readRecords d dims b recs = [] then none
  else some (rollupValue (collect (readRecords d dims b recs)).finish)

theorem readValue_congr {recs : Records Value}
    (h : bucketKey d dims b = bucketKey d dims b') :
    readValue d dims b recs = readValue d dims b' recs := by
  have hrecords : readRecords d dims b recs = readRecords d dims b' recs :=
    filter_congr fun r _ => decide_eq_decide.mpr (readsBucket_congr h)
  rw [readValue, readValue, hrecords]

variable {s s' s₀ : PebbleStore Value} {recs : Records Value}

/-- The aggregate of a bucket. -/
theorem rangeAggregate_bucket (h : PebbleStore.Holds s recs)
    (hreg : s.registry d.sourceTID = some dims) (hdims : 1 ≤ dims) (hb : 0 ≤ b)
    (hdur : 0 < d.bucketDuration) : s.rangeAggregate (bucketQuery d dims b).toAll =
      .ok (collect (readRecords d dims b recs)).finish := by
  have hlength : (bucketQuery d dims b).dims.length = dims := length_replicate ..
  have ha : s.Accepts (bucketQuery d dims b) dims := ⟨hreg, hdims.trans hlength.ge, hlength.le, hb,
    show 0 ≤ b + d.bucketDuration by omega⟩
  rw [h.rangeAggregate_collect ha (.inl le_rfl) fun hlt => absurd hlt (by omega)]
  refine congrArg (fun l => Except.ok (collect l).finish) (filter_congr fun r _ => ?_)
  refine decide_eq_decide.mpr (and_iff_left fun hshort => ?_)
  exact absurd hshort.1 (not_lt.mpr hlength.ge)

/-- The source of the rollup is as it was. -/
structure Untouched (d : RollupDef) (dims : Nat) (s s₀ : PebbleStore Value) : Prop where
  registry : s.registry = s₀.registry
  aggregate : ∀ b, s.rangeAggregate (bucketQuery d dims b).toAll =
    s₀.rangeAggregate (bucketQuery d dims b).toAll

/-- An event of another timeline does not change what is read. -/
theorem rangeAggregate_append {v : Value} (hreg : s.registry d.sourceTID = some dims)
    (hdims : 1 ≤ dims) (hne : e.timeline ≠ d.sourceTID) (h : s.append e v = .ok s') :
    s'.rangeAggregate (bucketQuery d dims b).toAll =
      s.rangeAggregate (bucketQuery d dims b).toAll := by
  obtain ⟨-, -, hregistry, hdb⟩ := append_eq_ok h
  have hlength : (replicate dims (0 : UInt64)).length = dims := length_replicate ..
  unfold rangeAggregate
  rw [hregistry]
  simp only [RangeNumQuery.toAll, bucketQuery, hreg]
  by_cases hb : 0 ≤ b ∧ 0 ≤ b + d.bucketDuration
  · have hscan : (s.db.set e.key v).scan (rangeStart d.sourceTID dims (replicate dims 0) b).key
        (increment (rangeStop d.sourceTID dims (replicate dims 0)
          (b + d.bucketDuration)).key) =
          s.db.scan (rangeStart d.sourceTID dims (replicate dims 0) b).key
            (increment (rangeStop d.sourceTID dims (replicate dims 0)
              (b + d.bucketDuration)).key) :=
      SortedMap.scan_set fun hin => not_readsBucket (b := b) hdims hne hin
    rw [rangeBounds_eq hlength.le hb.1 hb.2, hdb]
    simp only [hscan]
    rfl
  · -- neither is read before the epoch
    rw [rangeBounds_of_neg hlength.le (by omega)]

/-- The event of the destination is stored. -/
theorem append_rollupEvent {v : Value} (hdest : s.registry d.destTID = some dims) {toTime : Int}
    (hto : 0 ≤ toTime) : ∃ s', s.append (rollupEvent d dims toTime) v = .ok s' := by
  have hzero : d.destTID ≠ 0 := by
    intro heq
    rw [heq, s.reserved] at hdest
    cases hdest
  have hlength : ¬ (rollupEvent d dims toTime).dims.length ≠ dims :=
    not_not.mpr (length_replicate ..)
  have hkey := encodeKey_eq (e := rollupEvent d dims toTime) (length_replicate ..) hto
  unfold append
  rw [if_neg (show ¬ (rollupEvent d dims toTime).timeline = 0 from hzero),
    if_neg (show ¬ (rollupEvent d dims toTime).time < 0 from not_lt.mpr hto)]
  simp only [show s.registry (rollupEvent d dims toTime).timeline = some dims from hdest]
  rw [if_neg hlength, hkey]
  exact ⟨_, rfl⟩

/-- A store with the two timelines of a rollup, and what it holds. -/
structure Rolled (d : RollupDef) (dims destDims : Nat) (s₀ : PebbleStore Value)
    (recs : Records Value) : Prop where
  holds : PebbleStore.Holds s₀ recs
  source : s₀.registry d.sourceTID = some dims
  dest : s₀.registry d.destTID = some destDims
  dims_pos : 1 ≤ dims
  duration : 0 < d.bucketDuration

/-- A bucket from the epoch on. -/
theorem runBucket_read (h : Rolled d dims destDims s₀ recs) (hs : Untouched d dims s s₀)
    (hb : 0 ≤ b) :
    runBucket s d b (b + d.bucketDuration) =
      if readRecords d dims b recs = [] then .ok s
      else
        match s.append (rollupEvent d dims (b + d.bucketDuration))
          (rollupValue (collect (readRecords d dims b recs)).finish) with
        | .error err => .error (.append err)
        | .ok s' => .ok s' := by
  have haggregate : s.rangeAggregate
      ⟨d.sourceTID, replicate dims 0, b, b + d.bucketDuration, 0⟩ =
        .ok (collect (readRecords d dims b recs)).finish :=
    (hs.aggregate b).trans (rangeAggregate_bucket h.holds h.source h.dims_pos hb h.duration)
  have hreg' := hs.registry ▸ h.source
  have hdest' := hs.registry ▸ h.dest
  unfold runBucket
  simp only [hreg', hdest', haggregate, count_finish, count_collect, length_eq_zero_iff]

/-- **A bucket is run**: its aggregate is written, if there is one. -/
theorem runBucket_eq_ok (h : Rolled d dims destDims s₀ recs) (hs : Untouched d dims s s₀)
    (hne : d.destTID ≠ d.sourceTID) (hb : 0 ≤ b)
    (hfits : readRecords d dims b recs ≠ [] → destDims = dims) :
    ∃ s', runBucket s d b (b + d.bucketDuration) = .ok s' ∧ Untouched d dims s' s₀ ∧
      ∀ k, s'.db.get k =
        if k = bucketKey d dims b then (readValue d dims b recs).or (s.db.get k)
        else s.db.get k := by
  have hdur := h.duration
  rw [runBucket_read h hs hb]
  by_cases hnil : readRecords d dims b recs = []
  · refine ⟨s, if_pos hnil, hs, fun k => ?_⟩
    rw [readValue, if_pos hnil, Option.none_or, ite_self]
  · rw [if_neg hnil]
    obtain rfl := hfits hnil
    obtain ⟨s', happend⟩ := append_rollupEvent (s := s)
      (v := rollupValue (collect (readRecords d destDims b recs)).finish) (hs.registry ▸ h.dest)
      (show 0 ≤ b + d.bucketDuration by omega)
    obtain ⟨-, -, hregistry, hdb⟩ := append_eq_ok happend
    refine ⟨s', by rw [happend], ⟨hregistry.trans hs.registry, fun b' => ?_⟩, fun k => ?_⟩
    · exact (rangeAggregate_append (hs.registry ▸ h.source) h.dims_pos hne happend).trans
        (hs.aggregate b')
    · rw [hdb, SortedMap.get_set, readValue, if_neg hnil, Option.some_or]
      rfl

/-- A bucket stops with an error of its own, or writes to the destination only. -/
theorem runBucket_spec {fromTime toTime : Int} {r : Except RunError (PebbleStore Value)}
    (h : runBucket s d fromTime toTime = r) :
    match (motive := Except RunError (PebbleStore Value) → Prop) r with
    | .error err => err.isCascade = false
    | .ok s' => ∀ e : Event, e.timeline ≠ d.destTID → s'.db.get e.key = s.db.get e.key := by
  subst h
  unfold runBucket
  rcases s.registry d.sourceTID with - | dims
  · rfl
  rcases s.registry d.destTID with - | -
  · rfl
  dsimp only
  rcases s.rangeAggregate ⟨d.sourceTID, replicate dims 0, fromTime, toTime, 0⟩ with - | res
  · rfl
  dsimp only
  split_ifs
  · exact fun _ _ => rfl
  rcases happend : s.append (rollupEvent d dims toTime) (rollupValue res) with - | s'
  · rfl
  · obtain ⟨-, -, -, hdb⟩ := append_eq_ok happend
    intro e hne
    rw [hdb, SortedMap.get_set, if_neg]
    exact fun heq => hne (timeline_eq_of_key_eq heq)

/-- A bucket before the epoch cannot be read. -/
theorem runBucket_of_neg (hreg : s.registry d.sourceTID = some dims)
    (hdest : s.registry d.destTID = some destDims) (hdims : 1 ≤ dims) (hb : b < 0) :
    ∃ err, runBucket s d b (b + d.bucketDuration) = .error err := by
  have hlength : (replicate dims (0 : UInt64)).length = dims := length_replicate ..
  have hin : ¬ ((replicate dims (0 : UInt64)).length < 1 ∨
      dims < (replicate dims (0 : UInt64)).length) := by omega
  have haggregate : s.rangeAggregate
      ⟨d.sourceTID, replicate dims 0, b, b + d.bucketDuration, 0⟩ =
        .error (.codec .beforeEpoch) := by
    unfold rangeAggregate
    simp only [hreg, rangeBounds_of_neg hlength.le (.inl hb)]
    exact if_neg hin
  refine ⟨.aggregate (.codec .beforeEpoch), ?_⟩
  unfold runBucket
  simp only [hreg, hdest, haggregate]

/-- A destination with other dimensions cannot be written. -/
theorem runBucket_of_dims (h : Rolled d dims destDims s₀ recs) (hs : Untouched d dims s s₀)
    (hb : 0 ≤ b) (hread : readRecords d dims b recs ≠ []) (hfits : destDims ≠ dims) :
    ∃ err, runBucket s d b (b + d.bucketDuration) = .error err := by
  rw [runBucket_read h hs hb, if_neg hread]
  rcases happend : s.append (rollupEvent d dims (b + d.bucketDuration))
    (rollupValue (collect (readRecords d dims b recs)).finish) with err | s'
  · exact ⟨_, rfl⟩
  · -- an event is stored only with the dimensions of its timeline
    obtain ⟨-, hregistered, -⟩ := append_eq_ok happend
    have hlength : (rollupEvent d dims (b + d.bucketDuration)).dims.length = dims :=
      length_replicate ..
    rw [hlength, hs.registry] at hregistered
    exact absurd (Option.some.inj (h.dest.symm.trans hregistered)) hfits

end Bucket

/-! ### All buckets -/

section Buckets

variable {d : RollupDef} {dims destDims : Nat} {s s₀ : PebbleStore Value}
  {recs : Records Value}

theorem bucketStart_next (d : RollupDef) (t : Int) (i : Nat) :
    bucketStart d t (i + 1) = bucketStart d t i + d.bucketDuration := by
  rw [bucketStart, bucketStart, cast_add, cast_one, add_mul, one_mul, add_assoc]

theorem bucketStart_succ (d : RollupDef) (t : Int) (i : Nat) :
    bucketStart d (t + d.bucketDuration) i = bucketStart d t (i + 1) := by
  rw [bucketStart_next, bucketStart, bucketStart]
  omega

theorem bucketStart_zero (d : RollupDef) (t : Int) : bucketStart d t 0 = t := by
  rw [bucketStart, cast_zero, zero_mul, add_zero]

/-- **The buckets are run**, each with its own aggregate. -/
theorem runBuckets_eq (h : Rolled d dims destDims s₀ recs) (hne : d.destTID ≠ d.sourceTID) {n : Nat}
    {t : Int} (ht : 0 ≤ t)
    (hfits : ∀ i < n, readRecords d dims (bucketStart d t i) recs ≠ [] → destDims = dims)
    (hs : Untouched d dims s s₀) : ∃ s', runBuckets d n t s = (s', none) ∧
      (∀ i < n, s'.db.get (bucketKey d dims (bucketStart d t i)) =
        (readValue d dims (bucketStart d t i) recs).or
          (s.db.get (bucketKey d dims (bucketStart d t i)))) ∧
      ∀ k, (∀ i < n, k ≠ bucketKey d dims (bucketStart d t i)) → s'.db.get k = s.db.get k := by
  have hdur := h.duration
  induction n generalizing t s with
  | zero => exact ⟨s, rfl, fun i hi => absurd hi (not_lt_zero i), fun k _ => rfl⟩
  | succ n ih =>
    obtain ⟨s₁, hrun, hs₁, hget⟩ := runBucket_eq_ok h hs hne ht
      (bucketStart_zero d t ▸ hfits 0 (succ_pos n))
    obtain ⟨s', hrest, hwritten, hother⟩ := ih (t := t + d.bucketDuration) (by omega)
      (fun i hi => bucketStart_succ d t i ▸ hfits (i + 1) (succ_lt_succ hi)) hs₁
    simp only [bucketStart_succ] at hwritten hother
    -- a key that is written again gets the same value
    have hagain : ∀ j < n, ∀ b, bucketKey d dims b = bucketKey d dims (bucketStart d t (j + 1)) →
        s'.db.get (bucketKey d dims b) =
          (readValue d dims b recs).or (s.db.get (bucketKey d dims b)) := by
      intro j hj b hkey
      rw [hkey, hwritten j hj, hget, readValue_congr hkey]
      split_ifs with hfirst
      · rw [readValue_congr hfirst]
        cases readValue d dims t recs <;> rfl
      · rfl
    refine ⟨s', by rw [runBuckets, hrun]; exact hrest, fun i hi => ?_, fun k hk => ?_⟩
    · by_cases hlater : ∃ j < n, bucketKey d dims (bucketStart d t i) =
          bucketKey d dims (bucketStart d t (j + 1))
      · obtain ⟨j, hj, hkey⟩ := hlater
        exact hagain j hj _ hkey
      · -- this is the first bucket
        rcases i with - | i
        · rw [hother _ fun j hj hkey => hlater ⟨j, hj, hkey⟩, hget, bucketStart_zero, if_pos rfl]
        · exact absurd ⟨i, lt_of_succ_lt_succ hi, rfl⟩ hlater
    · rw [hother k fun j hj => hk (j + 1) (succ_lt_succ hj), hget, if_neg]
      rw [← bucketStart_zero d t]
      exact hk 0 (succ_pos n)

/-- A bucket with an aggregate that does not fit stops the loop. -/
theorem runBuckets_of_dims (h : Rolled d dims destDims s₀ recs) {n : Nat} {t : Int} (ht : 0 ≤ t)
    (hread : ∃ i < n, readRecords d dims (bucketStart d t i) recs ≠ []) (hfits : destDims ≠ dims)
    (hs : Untouched d dims s s₀) :
    ∃ s' b err, runBuckets d n t s = (s', some (b, err)) ∧ err.isCascade = false := by
  induction n generalizing t s with
  | zero =>
    obtain ⟨i, hi, -⟩ := hread
    exact absurd hi (not_lt_zero i)
  | succ n ih =>
    by_cases hfirst : readRecords d dims t recs = []
    · -- nothing is written for the first bucket
      have hrun : runBucket s d t (t + d.bucketDuration) = .ok s := by
        rw [runBucket_read h hs ht, if_pos hfirst]
      obtain ⟨i, hi, hread⟩ := hread
      rcases i with - | i
      · rw [bucketStart_zero] at hread
        exact absurd hfirst hread
      · rw [← bucketStart_succ] at hread
        rw [runBuckets, hrun]
        exact ih (add_nonneg ht h.duration.le) ⟨i, lt_of_succ_lt_succ hi, hread⟩ hs
    · obtain ⟨err, hrun⟩ := runBucket_of_dims h hs ht hfirst hfits
      refine ⟨s, t, err, ?_, runBucket_spec hrun⟩
      rw [runBuckets, hrun]

theorem get_runBuckets {e : Event} (hne : e.timeline ≠ d.destTID) (n : Nat) (t : Int) :
    (runBuckets d n t s).1.db.get e.key = s.db.get e.key := by
  induction n generalizing t s with
  | zero => rfl
  | succ n ih =>
    rw [runBuckets]
    rcases hrun : runBucket s d t (t + d.bucketDuration) with err | s'
    · rfl
    · exact (ih _).trans (runBucket_spec hrun e hne)

/-- The rollups below write elsewhere, and their errors are told apart. -/
theorem runCascade_spec {e : Event} {below : List RollupDef} (fromTime toTime : Int)
    (hne : ∀ d ∈ below, e.timeline ≠ d.destTID) :
    (runCascade fromTime toTime below s).1.db.get e.key = s.db.get e.key ∧
      ∀ err, (runCascade fromTime toTime below s).2 = some err → err.isCascade = true := by
  induction below generalizing s with
  | nil => exact ⟨rfl, fun err h => by cases h⟩
  | cons d below ih =>
    rw [forall_mem_cons] at hne
    have hget : (runWindow s d fromTime toTime).1.db.get e.key = s.db.get e.key :=
      get_runBuckets hne.1 _ _
    rw [runCascade]
    rcases hrun : runWindow s d fromTime toTime with ⟨s', - | ⟨t, err⟩⟩
    · rw [hrun] at hget
      obtain ⟨hrest, herr⟩ := ih (s := s') hne.2
      exact ⟨hrest.trans hget, herr⟩
    · rw [hrun] at hget
      refine ⟨hget, fun err' h => ?_⟩
      cases h
      rfl

end Buckets

end Xolu.Timeseries
