/-
# Range queries (pkg/timeseries/store.go)

`QueryRange` reads the entries between the two bounds of its range in ascending or descending
order, decodes each and keeps those in the range of time until it has enough.  The time is looked
at in the loop only for a prefix that spans several series; within one series the bounds decide.

The times of the bounds are in keys, which have them modulo 2^64.  A range is faithful if this
makes no difference to the times a key can have, and if the upper bound does not carry into the
timeline.  Queries over a range are exact for every store if and only if it is faithful
(`queryRange_exact_iff`); a range up to the year 2262 is.
-/
import Xolu.Timeseries.Scan

namespace Xolu.Timeseries

open List BigEndian Num64

/-- The order of the results. -/
inductive Order where
  | asc
  | desc
deriving DecidableEq, Repr

/-- The entries of a scan in the order they are read. -/
def Order.arrange {α : Type} : Order → List α → List α
  | .asc, l => l
  | .desc, l => l.reverse

structure RangeQuery where
  timeline : UInt32
  dims : List UInt64
  fromTime : Int
  toTime : Int
  /-- Not positive for the default. -/
  limit : Int
  order : Order
  /-- Not positive for no budget. -/
  maxScanEvents : Int
deriving DecidableEq, Repr

namespace RangeQuery

section

variable (q : RangeQuery)

/-- The limit or its default. -/
def resultLimit : Int := if q.limit ≤ 0 then 1000 else q.limit

/-- The query spans several series. -/
def partialPrefix (dims : Nat) : Prop := q.dims.length < dims
deriving Decidable

/-- The time filter of the loop does not drop an event with this time. -/
def keeps (dims : Nat) (ts : Int) : Prop :=
  ¬ (q.partialPrefix dims ∧ (ts < q.fromTime ∨ q.toTime < ts))
deriving Decidable

end

end RangeQuery

/-- `decodeEntry`; the value of an entry is kept decoded. -/
def decodeEntry {V : Type} (entry : Key × V) (dims : Nat) : Except QueryError (Event × V) :=
  match decodeKey entry.1 dims with
  | .error err => .error err
  | .ok e => .ok (e, entry.2)

/-- The loop of `QueryRange`. -/
def rangeLoop {V : Type} (q : RangeQuery) (dims limit : Nat) :
    Nat → Records V → List (Key × V) → Except QueryError (Records V)
  | _, results, [] => .ok results
  | scanned, results, entry :: entries =>
    if ¬ results.length < limit then .ok results
    else if 0 < q.maxScanEvents ∧ q.maxScanEvents < scanned + 1 then .error .scanLimit
    else
      match decodeEntry entry dims with
      | .error err => .error err
      | .ok r =>
        if ¬ q.keeps dims r.1.time then rangeLoop q dims limit (scanned + 1) results entries
        else rangeLoop q dims limit (scanned + 1) (results ++ [r]) entries

namespace PebbleStore

variable {V : Type}

def queryRange (s : PebbleStore V) (q : RangeQuery) : Except QueryError (Records V) :=
  match s.registry q.timeline with
  | none => .error (.notDefined q.timeline)
  | some dims =>
    if q.dims.length < 1 ∨ dims < q.dims.length then .error (.queryDims q.dims.length dims)
    else if 10000 < q.resultLimit then .error (.limit q.limit)
    else
      match rangeBounds q.timeline dims q.dims q.fromTime q.toTime with
      | .error err => .error (.codec err)
      | .ok (startKey, endKey) =>
        rangeLoop q dims q.resultLimit.toNat 0 [] (q.order.arrange (s.db.scan startKey endKey))

end PebbleStore

/-! ### What a query is for -/

/-- The order of the events of a timeline: by dimensions, then by time. -/
def Event.Precedes (e e' : Event) : Prop := e.dims < e'.dims ∨ e.dims = e'.dims ∧ e.time < e'.time

namespace RangeQuery

variable {V : Type}

/-- An event the query asks for. -/
def Selects (q : RangeQuery) (e : Event) : Prop :=
  e.timeline = q.timeline ∧ q.dims <+: e.dims ∧ q.fromTime ≤ e.time ∧ e.time ≤ q.toTime
deriving Decidable

/-- The first records, in the order of the query, of those it asks for. -/
def Answer (q : RangeQuery) (recs out : Records V) : Prop :=
  ∃ all : Records V, all.Pairwise (fun r r' => r.1.Precedes r'.1) ∧
    (∀ r, r ∈ all ↔ r ∈ recs ∧ q.Selects r.1) ∧
    out = (q.order.arrange all).take q.resultLimit.toNat

/-- The query returns its answer; one with a scan budget may be given up instead. -/
def Exact (q : RangeQuery) (s : PebbleStore V) (recs : Records V) : Prop :=
  (∃ out, s.queryRange q = .ok out ∧ q.Answer recs out) ∨
    0 < q.maxScanEvents ∧ s.queryRange q = .error .scanLimit

/-- Keys make no difference to the range: of the times a key can have, those of the range are
between the bounds; within one series only those are; and no event of the next timeline is. -/
structure Faithful (q : RangeQuery) (dims : Nat) : Prop where
  times : ∀ ts : Int, 0 ≤ ts → ts < 2 ^ 63 → q.fromTime ≤ ts → ts ≤ q.toTime →
    stampOf q.fromTime ≤ ts ∧ ts ≤ stampOf q.toTime
  stamps : q.dims.length = dims → ∀ ts : Int, 0 ≤ ts → ts < 2 ^ 63 →
    stampOf q.fromTime ≤ ts → ts ≤ stampOf q.toTime → q.fromTime ≤ ts ∧ ts ≤ q.toTime
  carry : 1 < dims → q.timeline.toNat + 1 < 4294967296 →
    ¬ ((∀ d ∈ q.dims, d = maxDim) ∧ stampOf q.toTime = 18446744073709551615)

/-- The key is between the bounds of the query. -/
abbrev Reads (q : RangeQuery) (dims : Nat) (k : Key) : Prop :=
  InBounds (rangeStart q.timeline dims q.dims q.fromTime).key
    (increment (rangeStop q.timeline dims q.dims q.toTime).key) k

/-- The query is not refused. -/
structure Accepted (q : RangeQuery) (dims : Nat) : Prop where
  dims_pos : 1 ≤ q.dims.length
  dims_le : q.dims.length ≤ dims
  limit : q.limit ≤ 10000
  fromTime : 0 ≤ q.fromTime
  toTime : 0 ≤ q.toTime

/-- A range up to the year 2262 is faithful. -/
theorem faithful_of_le {q : RangeQuery} (dims : Nat) (hfrom : 0 ≤ q.fromTime)
    (hfrom' : q.fromTime < 2 ^ 63) (hto : 0 ≤ q.toTime)
    (hto' : q.toTime < 2 ^ 63) : q.Faithful dims := by
  have hstart := stampOf_eq hfrom hfrom'
  have hstop := stampOf_eq hto hto'
  refine ⟨fun ts _ _ => ?_, fun _ ts _ _ => ?_, fun _ _ => ?_⟩
  · omega
  · omega
  · omega

end RangeQuery

/-! ### The loop -/

section Loop

variable {V : Type} {q : RangeQuery} {dims limit : Nat}

theorem decodeEntry_key (e : Event) (v : V) (h : e.dims.length = dims) :
    decodeEntry (e.key, v) dims = .ok (e.stored, v) := by
  subst h
  rw [decodeEntry, decodeKey_key]

/-- **The loop** over entries of the timeline keeps the first of those the filter keeps. -/
theorem rangeLoop_eq {recs : Records V} (hdims : ∀ r ∈ recs, r.1.dims.length = dims)
    (scanned : Nat) (results : Records V) :
    rangeLoop q dims limit scanned results (recs.map fun r => (r.1.key, r.2)) =
        .ok (results ++ (((recs.filter fun r => q.keeps dims r.1.readTime).map
          fun r => (r.1.stored, r.2)).take (limit - results.length))) ∨
      0 < q.maxScanEvents ∧
        rangeLoop q dims limit scanned results (recs.map fun r => (r.1.key, r.2)) =
          .error .scanLimit := by
  induction recs generalizing scanned results with
  | nil => exact .inl (by simp [rangeLoop])
  | cons r recs ih =>
    rw [forall_mem_cons] at hdims
    rw [map_cons, rangeLoop]
    by_cases hfull : ¬ results.length < limit
    · rw [if_pos hfull, Nat.sub_eq_zero_of_le (Nat.not_lt.mp hfull)]
      exact .inl (by simp)
    rw [if_neg hfull]
    by_cases hbudget : 0 < q.maxScanEvents ∧ q.maxScanEvents < scanned + 1
    · rw [if_pos hbudget]
      exact .inr ⟨hbudget.1, rfl⟩
    rw [if_neg hbudget, decodeEntry_key r.1 r.2 hdims.1]
    simp only
    by_cases hkeep : q.keeps dims r.1.readTime
    · -- one more result, and room for one less
      have hstored : ¬ ¬ q.keeps dims r.1.stored.time := not_not.mpr hkeep
      rw [if_neg hstored]
      rcases ih hdims.2 (scanned + 1) (results ++ [(r.1.stored, r.2)]) with hok | herr
      · refine .inl (hok.trans ?_)
        obtain ⟨room, hroom⟩ : ∃ room, limit - results.length = room + 1 :=
          ⟨limit - results.length - 1, by omega⟩
        have hrest : limit - (results ++ [(r.1.stored, r.2)]).length = room := by
          rw [length_append, length_singleton]
          omega
        rw [hrest, hroom, filter_cons_of_pos (by simpa using hkeep), map_cons,
          take_succ_cons, append_assoc]
        rfl
      · exact .inr herr
    · have hstored : ¬ q.keeps dims r.1.stored.time := hkeep
      rw [if_pos hstored, filter_cons_of_neg (by simpa using hkeep)]
      exact ih hdims.2 (scanned + 1) results

end Loop

/-! ### Exact queries -/

namespace PebbleStore

variable {V : Type} {s : PebbleStore V} {recs : Records V} {q : RangeQuery} {dims : Nat}

/-- The dimensions of a timeline are in the limits `MinDims` and `MaxDims` of its definition. -/
def Declared (s : PebbleStore V) : Prop :=
  ∀ id dims, s.registry id = some dims → 1 ≤ dims ∧ dims ≤ 5

/-- The order of the keys is that of the timelines, the dimensions and the times. -/
def KeysInOrder (recs : Records V) : Prop :=
  ∀ r ∈ recs, ∀ r' ∈ recs, r.1.key < r'.1.key ↔
    r.1.timeline < r'.1.timeline ∨ r.1.timeline = r'.1.timeline ∧ r.1.Precedes r'.1

theorem before_iff_precedes {e e' : Event} (h : 0 ≤ e.time) (hmax : e.time < 2 ^ 63)
    (h' : 0 ≤ e'.time) (hmax' : e'.time < 2 ^ 63) : e.Before e' ↔ e.Precedes e' := by
  have hstamp : (e.stamp : Int) = e.time := stampOf_eq h hmax
  have hstamp' : (e'.stamp : Int) = e'.time := stampOf_eq h' hmax'
  rw [Event.Before, Event.Precedes, ← hstamp, ← hstamp', Int.ofNat_lt]

theorem Holds.length_eq (h : Holds s recs) {r r' : Event × V} (hr : r ∈ recs) (hr' : r' ∈ recs)
    (heq : r.1.timeline = r'.1.timeline) : r.1.dims.length = r'.1.dims.length := by
  refine Option.some.inj ?_
  rw [← h.registered r hr, ← h.registered r' hr', heq]

theorem Holds.keysInOrder (h : Holds s recs)
    (hmax : ∀ r ∈ recs, r.1.time < 2 ^ 63) : KeysInOrder recs := by
  intro r hr r' hr'
  by_cases heq : r.1.timeline = r'.1.timeline
  · rw [key_lt_key_iff heq (h.length_eq hr hr' heq), before_iff_precedes (h.epoch r hr)
      (hmax r hr) (h.epoch r' hr') (hmax r' hr'), heq]
    simp
  · rw [key_lt_key_of_ne heq]
    simp [heq]

/-- A query that is not refused is the loop over what is between its bounds. -/
theorem queryRange_eq (hreg : s.registry q.timeline = some dims) (ha : q.Accepted dims) :
    s.queryRange q =
      rangeLoop q dims q.resultLimit.toNat 0 [] (q.order.arrange
        (s.db.scan (rangeStart q.timeline dims q.dims q.fromTime).key
          (increment (rangeStop q.timeline dims q.dims q.toTime).key))) := by
  obtain ⟨hdims, hdims', hlimit, hfrom, hto⟩ := ha
  have hdims : ¬ (q.dims.length < 1 ∨ dims < q.dims.length) := by omega
  have hlimit : ¬ 10000 < q.resultLimit := by
    unfold RangeQuery.resultLimit
    split <;> omega
  unfold queryRange
  simp only [hreg]
  rw [if_neg hdims, if_neg hlimit, rangeBounds_eq hdims' hfrom hto]

theorem arrange_map {α β : Type} (o : Order) (f : α → β) (l : List α) :
    o.arrange (l.map f) = (o.arrange l).map f := by
  cases o with
  | asc => rfl
  | desc => exact map_reverse.symm

theorem arrange_filter {α : Type} (o : Order) (p : α → Bool) (l : List α) :
    o.arrange (l.filter p) = (o.arrange l).filter p := by
  cases o with
  | asc => rfl
  | desc => exact (filter_reverse).symm

theorem mem_arrange {α : Type} (o : Order) {a : α} {l : List α} : a ∈ o.arrange l ↔ a ∈ l := by
  cases o with
  | asc => rfl
  | desc => exact mem_reverse

/-- What a query reads and keeps, for events with times a key can have. -/
theorem Holds.selects_iff (h : Holds s recs) (hreg : s.registry q.timeline = some dims)
    (hdims' : q.dims.length ≤ dims) (hq : q.Faithful dims) {r : Event × V} (hr : r ∈ recs)
    (hmax : r.1.time < 2 ^ 63) (hid : r.1.timeline = q.timeline) :
    q.Reads dims r.1.key ∧ q.keeps dims r.1.readTime ↔ q.Selects r.1 := by
  have hepoch := h.epoch r hr
  have hlength : r.1.dims.length = dims := by
    refine Option.some.inj ?_
    rw [← h.registered r hr, hid, hreg]
  have hstamp : (r.1.stamp : Int) = r.1.time := stampOf_eq hepoch hmax
  rw [RangeQuery.Reads, ← hid, inRange_iff hlength hdims', Event.readTime_eq hepoch hmax,
    RangeQuery.Selects, RangeQuery.keeps, RangeQuery.partialPrefix, and_iff_right hid]
  by_cases hfull : q.dims.length = dims
  · -- within one series the bounds decide
    have hpad : ∀ v, padDims q.dims dims v = q.dims := fun v => hfull ▸ padDims_self q.dims v
    have hwhole : q.dims <+: r.1.dims ↔ r.1.dims = q.dims :=
      ⟨fun hp => (hp.eq_of_length (hfull.trans hlength.symm)).symm,
        fun heq => heq ▸ prefix_rfl⟩
    have htimes := hq.times r.1.time hepoch hmax
    have hstamps := hq.stamps hfull r.1.time hepoch hmax
    rw [hpad, hpad, hwhole]
    constructor
    · rintro ⟨⟨heq, hlow, hhigh⟩, -⟩
      have hlow := hlow heq
      have hhigh := hhigh heq
      exact ⟨heq, hstamps (by omega) (by omega)⟩
    · rintro ⟨heq, hlow, hhigh⟩
      exact ⟨⟨heq, fun _ => by omega, fun _ => by omega⟩, fun hlt => by omega⟩
  · have htimes := hq.times r.1.time hepoch hmax
    constructor
    · rintro ⟨⟨hp, -, -⟩, hkeep⟩
      refine ⟨hp, ?_⟩
      by_contra hout
      exact hkeep ⟨by omega, by omega⟩
    · rintro ⟨hp, hlow, hhigh⟩
      exact ⟨⟨hp, fun _ => by omega, fun _ => by omega⟩, fun hlt => by omega⟩

/-- Nothing of another timeline is read. -/
theorem Holds.timeline_eq (h : Holds s recs) (hs : s.Declared) (hdims' : q.dims.length ≤ dims)
    (hq : q.Faithful dims) {r : Event × V} (hr : r ∈ recs)
    (hin : q.Reads dims r.1.key) : r.1.timeline = q.timeline := by
  by_contra hne
  obtain ⟨hcarry, hnext, hfewer, -, -⟩ := (inRange_other_iff hne hdims').mp hin
  have hmin := (hs _ _ (h.registered r hr)).1
  have hlast : r.1.timeline.toNat < 4294967296 := r.1.timeline.toNat_lt
  exact hq.carry (by omega) (by omega) hcarry

/-- A faithful query is exact. -/
theorem Holds.exact (h : Holds s recs) (hs : s.Declared)
    (hmax : ∀ r ∈ recs, r.1.time < 2 ^ 63) (hreg : s.registry q.timeline = some dims)
    (ha : q.Accepted dims) (hq : q.Faithful dims) : q.Exact s recs := by
  -- the records between the bounds are of the timeline, and the filter leaves the selected ones
  have hread : ∀ r ∈ recs, q.Reads dims r.1.key → r.1.timeline = q.timeline := fun r hr =>
    h.timeline_eq hs ha.dims_le hq hr
  have hselected : ((recs.filter fun r => q.Reads dims r.1.key).filter
        fun r => q.keeps dims r.1.readTime) = recs.filter fun r => q.Selects r.1 := by
    rw [filter_filter]
    refine filter_congr fun r hr => ?_
    rw [Bool.eq_iff_iff, Bool.and_eq_true, decide_eq_true_iff, decide_eq_true_iff,
      decide_eq_true_iff]
    by_cases hid : r.1.timeline = q.timeline
    · rw [and_comm, h.selects_iff hreg ha.dims_le hq hr (hmax r hr) hid]
    · exact iff_of_false (fun hin => hid (hread r hr hin.2)) fun hsel => hid hsel.1
  have hstored : (recs.filter fun r => q.Selects r.1).map (fun r => (r.1.stored, r.2)) =
      recs.filter fun r => q.Selects r.1 := by
    refine (map_congr_left fun r hr => ?_).trans (map_id _)
    have hr := mem_of_mem_filter hr
    rw [Event.stored_eq (h.epoch r hr) (hmax r hr)]
    rfl
  have hlength : ∀ r ∈ q.order.arrange (recs.filter fun r => q.Reads dims r.1.key),
      r.1.dims.length = dims := by
    intro r hr
    obtain ⟨hr, hin⟩ := mem_filter.mp ((mem_arrange q.order).mp hr)
    rw [decide_eq_true_iff] at hin
    refine Option.some.inj ?_
    rw [← h.registered r hr, hread r hr hin, hreg]
  unfold RangeQuery.Exact
  rw [queryRange_eq hreg ha, h.scan_eq, arrange_map]
  rcases rangeLoop_eq hlength 0 [] with hok | herr
  · refine .inl ⟨_, hok, recs.filter fun r => q.Selects r.1, ?_, fun r => ?_, ?_⟩
    · refine (h.pairwise.filter _).imp_of_mem fun {r r'} hr hr' hlt => ?_
      obtain ⟨hr, hsel⟩ := mem_filter.mp hr
      obtain ⟨hr', hsel'⟩ := mem_filter.mp hr'
      rw [decide_eq_true_iff] at hsel hsel'
      have heq : r.1.timeline = r'.1.timeline := hsel.1.trans hsel'.1.symm
      rcases (h.keysInOrder hmax r hr r' hr').mp hlt with hlt | ⟨-, hlt⟩
      · rw [heq] at hlt
        exact absurd hlt (UInt32.lt_irrefl _)
      · exact hlt
    · rw [mem_filter, decide_eq_true_iff]
    · rw [nil_append, ← arrange_filter, hselected, ← arrange_map, hstored]
      rfl
  · exact .inr herr

/-! ### Queries that are not exact -/

/-- A store with one record. -/
def oneRecord (q : RangeQuery) (dims : Nat) (e : Event) (v : V) (hq : q.timeline ≠ 0)
    (he : e.timeline ≠ 0) : PebbleStore V where
  registry id := if id = q.timeline then some dims
    else if id = e.timeline then some e.dims.length else none
  db := ⟨[(e.key, v)], pairwise_singleton _ _⟩
  counter _ := 0
  reserved := by rw [if_neg hq.symm, if_neg he.symm]

section OneRecord

variable {e : Event} {v : V} {hid : q.timeline ≠ 0} {he : e.timeline ≠ 0}

theorem holds_oneRecord (hlength : e.timeline = q.timeline → e.dims.length = dims)
    (hepoch : 0 ≤ e.time) : Holds (oneRecord q dims e v hid he) [(e, v)] := by
  refine ⟨rfl, forall_mem_singleton.mpr ?_, forall_mem_singleton.mpr hepoch⟩
  by_cases heq : e.timeline = q.timeline
  · exact (if_pos heq).trans (congrArg some (hlength heq).symm)
  · exact (if_neg heq).trans (if_pos rfl)

theorem declared_oneRecord (hdims : 1 ≤ dims) (hdims' : dims ≤ 5) (hmin : 1 ≤ e.dims.length)
    (hmax : e.dims.length ≤ 5) : (oneRecord q dims e v hid he).Declared := by
  intro id n h
  replace h : (if id = q.timeline then some dims
    else if id = e.timeline then some e.dims.length else none) = some n := h
  split_ifs at h
  · cases h
    exact ⟨hdims, hdims'⟩
  · cases h
    exact ⟨hmin, hmax⟩

theorem registry_oneRecord : (oneRecord q dims e v hid he).registry q.timeline = some dims :=
  if_pos rfl

theorem arrange_singleton {α : Type} (o : Order) (a : α) : o.arrange [a] = [a] := by
  cases o with
  | asc | desc => rfl

/-- The query reads the record or nothing. -/
theorem queryRange_oneRecord (ha : q.Accepted dims) : (oneRecord q dims e v hid he).queryRange q =
      if q.Reads dims e.key then rangeLoop q dims q.resultLimit.toNat 0 [] [(e.key, v)]
      else .ok [] := by
  rw [queryRange_eq registry_oneRecord ha]
  have hscan : (oneRecord q dims e v hid he).db.scan
      (rangeStart q.timeline dims q.dims q.fromTime).key
      (increment (rangeStop q.timeline dims q.dims q.toTime).key) =
      if q.Reads dims e.key then [(e.key, v)] else [] := by
    simp only [SortedMap.scan, oneRecord, filter_cons, filter_nil, Bool.and_eq_true,
      Bool.not_eq_true', decide_eq_false_iff_not]
    exact if_congr Iff.rfl rfl rfl
  rw [hscan]
  split_ifs
  · rw [arrange_singleton]
  · cases q.order with
    | asc | desc => rfl

theorem one_le_resultLimit (q : RangeQuery) : 1 ≤ q.resultLimit.toNat := by
  unfold RangeQuery.resultLimit
  split <;> omega

/-- An exact query returns a record it asks for. -/
theorem inBounds_of_exact (hexact : q.Exact (oneRecord q dims e v hid he) [(e, v)])
    (hsel : q.Selects e) (ha : q.Accepted dims) : q.Reads dims e.key := by
  by_contra hout
  rw [RangeQuery.Exact, queryRange_oneRecord ha, if_neg hout] at hexact
  rcases hexact with ⟨out, hok, all, -, hall, hanswer⟩ | ⟨-, herr⟩
  · cases hok
    have hmem : (e, v) ∈ q.order.arrange all :=
      (mem_arrange q.order).mpr ((hall (e, v)).mpr ⟨mem_singleton_self _, hsel⟩)
    rcases hall : q.order.arrange all with - | ⟨r, rest⟩
    · rw [hall] at hmem
      exact absurd hmem not_mem_nil
    · obtain ⟨limit, hlimit⟩ : ∃ limit, q.resultLimit.toNat = limit + 1 :=
        ⟨q.resultLimit.toNat - 1, by have := one_le_resultLimit q; omega⟩
      rw [hall, hlimit, take_succ_cons] at hanswer
      cases hanswer
  · cases herr

/-- The loop on one entry does not run out of its budget. -/
theorem rangeLoop_singleton (entry : Key × V) :
    rangeLoop q dims q.resultLimit.toNat 0 [] [entry] =
      match decodeEntry entry dims with
      | .error err => .error err
      | .ok r => if q.keeps dims r.1.time then .ok [r] else .ok [] := by
  have hroom : ¬ ¬ ([] : Records V).length < q.resultLimit.toNat :=
    not_not.mpr (one_le_resultLimit q)
  have hbudget : ¬ (0 < q.maxScanEvents ∧ q.maxScanEvents < ((0 : Nat) : Int) + 1) := by omega
  rw [rangeLoop, if_neg hroom, if_neg hbudget]
  rcases decodeEntry entry dims with err | r
  · rfl
  · simp only [rangeLoop, nil_append, ite_not]

/-- And nothing else. -/
theorem selects_of_exact (hexact : q.Exact (oneRecord q dims e v hid he) [(e, v)])
    (hlength : e.dims.length = dims) (hfull : q.dims.length = dims)
    (hin : q.Reads dims e.key) (ha : q.Accepted dims) : q.Selects e := by
  have hkeep : q.keeps dims e.stored.time := fun h => absurd h.1 (Nat.not_lt.mpr hfull.ge)
  have hok : (oneRecord q dims e v hid he).queryRange q = .ok [(e.stored, v)] := by
    rw [queryRange_oneRecord ha, if_pos hin, rangeLoop_singleton, decodeEntry_key e v hlength]
    exact if_pos hkeep
  rcases hexact with ⟨out, hout, all, -, hall, hanswer⟩ | ⟨-, herr⟩
  · rw [hok, Except.ok.injEq] at hout
    subst hout
    have hmem : (e.stored, v) ∈ q.order.arrange all :=
      mem_of_mem_take (hanswer ▸ mem_singleton_self _)
    obtain ⟨hr, hsel⟩ := (hall _).mp ((mem_arrange q.order).mp hmem)
    rwa [mem_singleton.mp hr] at hsel
  · rw [hok] at herr
    cases herr

/-- An event of the next timeline with one dimension, zero, at the epoch. -/
def stray (q : RangeQuery) : Event := ⟨UInt32.ofNat (q.timeline.toNat + 1), [0], 0⟩

section

variable (h : q.timeline.toNat + 1 < 4294967296)

include h

theorem toNat_stray : (stray q).timeline.toNat = q.timeline.toNat + 1 := UInt32.toNat_ofNat_of_lt h

theorem stray_ne : (stray q).timeline ≠ q.timeline := by
  intro heq
  have hnext := toNat_stray h
  rw [heq] at hnext
  omega

theorem stray_ne_zero : (stray q).timeline ≠ 0 := by
  intro heq
  have hnext := toNat_stray h
  rw [heq] at hnext
  cases hnext

end

/-- After a carry the event of the next timeline is read, and cannot be decoded. -/
theorem not_exact_of_carry {hne : (stray q).timeline ≠ 0} (ha : q.Accepted dims)
    (hmany : 1 < dims) (hlast : q.timeline.toNat + 1 < 4294967296)
    (hcarry : (∀ d ∈ q.dims, d = maxDim) ∧ stampOf q.toTime = 18446744073709551615) :
    ¬ q.Exact (oneRecord q dims (stray q) v hid hne) [(stray q, v)] := by
  have hin : q.Reads dims (stray q).key :=
    (inRange_other_iff (stray_ne hlast) ha.dims_le).mpr
      ⟨hcarry, toNat_stray hlast, hmany, forall_mem_singleton.mpr rfl, rfl⟩
  have hdecode : decodeKey (stray q).key dims = .error _ := decodeKey_of_length hmany.ne
  rw [RangeQuery.Exact, queryRange_oneRecord ha, if_pos hin,
    rangeLoop_singleton, decodeEntry, hdecode]
  rintro (⟨out, hok, -⟩ | ⟨-, herr⟩)
  · cases hok
  · cases herr

end OneRecord

/-- **Range queries are exact** if and only if the range is faithful.  The hypotheses are those the
query is refused without. -/
theorem queryRange_exact_iff [Inhabited V] (hid : q.timeline ≠ 0) (hdims : 1 ≤ q.dims.length)
    (hdims' : q.dims.length ≤ dims) (hmax : dims ≤ 5) (hlimit : q.limit ≤ 10000)
    (hfrom : 0 ≤ q.fromTime) (hto : 0 ≤ q.toTime) :
    (∀ (s : PebbleStore V) (recs : Records V), s.Declared →
      s.registry q.timeline = some dims → Holds s recs →
      (∀ r ∈ recs, r.1.time < 2 ^ 63) → KeysInOrder recs ∧ q.Exact s recs) ↔
      q.Faithful dims := by
  have ha : q.Accepted dims := ⟨hdims, hdims', hlimit, hfrom, hto⟩
  constructor
  · intro hexact
    -- an event of the timeline alone in the store
    have hown : ∀ d : List UInt64, d.length = dims → ∀ ts : Int, 0 ≤ ts →
        ts < 2 ^ 63 →
        q.Exact (oneRecord q dims ⟨q.timeline, d, ts⟩ default hid hid)
          [(⟨q.timeline, d, ts⟩, (default : V))] := by
      intro d hd ts hts hts'
      have hmin : 1 ≤ dims := hdims.trans hdims'
      refine (hexact (oneRecord q dims ⟨q.timeline, d, ts⟩ default hid hid)
        [(⟨q.timeline, d, ts⟩, default)] ?_ registry_oneRecord (holds_oneRecord (fun _ => hd) hts)
        (forall_mem_singleton.mpr hts')).2
      exact declared_oneRecord hmin hmax (hmin.trans hd.ge) (hd.le.trans hmax)
    have hstamp : ∀ (d : List UInt64) {ts : Int}, 0 ≤ ts → ts < 2 ^ 63 →
        (((⟨q.timeline, d, ts⟩ : Event).stamp : Nat) : Int) = ts := fun _ _ => stampOf_eq
    refine ⟨fun ts hts hts' hlow hhigh => ?_, fun hfull ts hts hts' hlow hhigh => ?_, ?_⟩
    · -- the corners of the range
      have hcorner : ∀ w : UInt64,
          q.Reads dims (⟨q.timeline, padDims q.dims dims w, ts⟩ : Event).key := fun w =>
        inBounds_of_exact (hown (padDims q.dims dims w) (length_padDims hdims' w) ts hts hts')
          ⟨rfl, padDims_eq hdims' w ▸ prefix_append _ _, hlow, hhigh⟩ ha
      have hstart := ((inRange_iff (e := ⟨q.timeline, padDims q.dims dims 0, ts⟩)
        (length_padDims hdims' 0) hdims').mp (hcorner 0)).2.1 rfl
      have hstop := ((inRange_iff (e := ⟨q.timeline, padDims q.dims dims maxDim, ts⟩)
        (length_padDims hdims' maxDim) hdims').mp (hcorner maxDim)).2.2 rfl
      have hstamp₀ := hstamp (padDims q.dims dims 0) hts hts'
      have hstamp₁ := hstamp (padDims q.dims dims maxDim) hts hts'
      exact ⟨by omega, by omega⟩
    · have hstamp₀ := hstamp q.dims hts hts'
      have hin : q.Reads dims (⟨q.timeline, q.dims, ts⟩ : Event).key :=
        (inRange_iff (e := ⟨q.timeline, q.dims, ts⟩) hfull hdims').mpr
          ⟨prefix_rfl, fun _ => by omega, fun _ => by omega⟩
      exact (selects_of_exact (hown q.dims hfull ts hts hts') hfull hfull hin ha).2.2
    · intro hmany hlast hcarry
      have hne := stray_ne_zero hlast
      have hdeclared : (oneRecord q dims (stray q) (default : V) hid hne).Declared :=
        declared_oneRecord (hdims.trans hdims') hmax le_rfl (show 1 ≤ 5 by decide)
      have hholds : Holds (oneRecord q dims (stray q) (default : V) hid hne) [(stray q, default)] :=
        holds_oneRecord (fun heq => absurd heq (stray_ne hlast)) (show (0 : Int) ≤ 0 from le_rfl)
      refine not_exact_of_carry ha hmany hlast hcarry
        (hexact _ _ hdeclared registry_oneRecord hholds ?_).2
      exact forall_mem_singleton.mpr (show (0 : Int) < 2 ^ 63 by decide)
  · intro hq s recs hs hreg h hmaxTime
    exact ⟨h.keysInOrder hmaxTime, h.exact hs hmaxTime hreg ha hq⟩

/-- A timeline with two dimensions and two series of one first dimension. -/
def sevens : PebbleStore Nat :=
  Runs.run step (init (fun id => if id = 1 then some 2 else none) rfl)
    [.append ⟨1, [7, 2], 1⟩ 10, .append ⟨1, [7, 1], 3⟩ 20, .append ⟨1, [7, 1], 30⟩ 30]

/-- Its records. -/
def sevensRecords : Records Nat :=
  [(⟨1, [7, 1], 3⟩, 20), (⟨1, [7, 1], 30⟩, 30), (⟨1, [7, 2], 1⟩, 10)]

theorem holds_sevens : Holds sevens sevensRecords :=
  ⟨by decide +kernel, by decide +kernel, by decide +kernel⟩

theorem declared_sevens : sevens.Declared := by
  intro id dims h
  replace h : (if id = 1 then some 2 else none) = some dims := h
  split_ifs at h
  cases h
  decide

/-- The last event of the range, over both series. -/
theorem queryRange_sevens : RangeQuery.Exact ⟨1, [7], 0, 20, 1, .desc, 0⟩ sevens sevensRecords :=
  have hq : RangeQuery.Faithful ⟨1, [7], 0, 20, 1, .desc, 0⟩ 2 :=
    RangeQuery.faithful_of_le 2 (by decide) (by decide) (by decide) (by decide)
  ((queryRange_exact_iff (by decide) (by decide) (by decide) (by decide) (by decide) (by decide)
    (by decide)).mpr hq sevens _ declared_sevens rfl holds_sevens (by decide)).2

/-- A range that ends 2^64 nanoseconds after the epoch, in the year 2554, ends at the epoch. -/
theorem queryRange_misses_events : Holds sevens sevensRecords ∧
    ¬ RangeQuery.Exact ⟨1, [7, 1], 0, 18446744073709551616, 100, .asc, 0⟩ sevens
      sevensRecords := by
  refine ⟨holds_sevens, ?_⟩
  have hresult : sevens.queryRange ⟨1, [7, 1], 0, 18446744073709551616, 100, .asc, 0⟩ =
      .ok [] := by decide +kernel
  rintro (⟨out, hout, all, -, hall, hanswer⟩ | ⟨hbudget, -⟩)
  · rw [hresult, Except.ok.injEq] at hout
    have hmem : (⟨1, [7, 1], 3⟩, 20) ∈ all := (hall _).mpr (by decide)
    rw [← hout] at hanswer
    rcases take_eq_nil_iff.mp hanswer.symm with hlimit | hnil
    · exact absurd hlimit (by decide)
    · rw [show all = [] from hnil] at hmem
      exact absurd hmem not_mem_nil
  · exact absurd hbudget (by decide)

end PebbleStore

end Xolu.Timeseries
