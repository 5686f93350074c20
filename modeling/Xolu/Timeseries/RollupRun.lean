/-
# What a run of a rollup counts (pkg/timeseries/rollup.go)

A run over a window between buckets is over the events of each bucket, whatever the values are, if
and only if these are in the series of zeros and none of that series is at the end of a bucket,
unless the window starts before the epoch or the destination has other dimensions
(`runRollup_exact_iff`).
-/
import Mathlib.Algebra.BigOperators.Ring.Finset
import Xolu.Timeseries.Rollup

namespace Xolu.Timeseries

open List Pointers Relation Trees Int

/-! ### The counts of the buckets -/

section Counts

variable {V : Type} {d : RollupDef} {fromTime toTime : Int}

variable (d) in
/-- Nothing is in a window that ends where it starts, or before. -/
theorem windowRecords_of_le (hle : toTime ≤ fromTime) (recs : Records V) :
    windowRecords d fromTime toTime recs = [] := by
  refine filter_eq_nil_iff.mpr fun r _ hin => ?_
  rw [decide_eq_true_eq] at hin
  omega

variable (d) in
/-- Two windows, one after the other. -/
theorem length_windowRecords_add {mid : Int} (hfrom : fromTime ≤ mid) (hto : mid ≤ toTime)
    (recs : Records V) : (windowRecords d fromTime mid recs).length +
      (windowRecords d mid toTime recs).length = (windowRecords d fromTime toTime recs).length := by
  induction recs with
  | nil => rfl
  | cons r recs ih =>
    simp only [windowRecords, ← countP_eq_length_filter, countP_cons, decide_eq_true_eq] at ih ⊢
    split_ifs <;> grind

section

variable (hdur : 0 < d.bucketDuration)

include hdur

theorem lt_of_bucketCount_pos (hpos : 0 < bucketCount d fromTime toTime) : fromTime < toTime := by
  by_contra hle
  have hdiv : (toTime - fromTime) / d.bucketDuration ≤ 0 := by
    have := Int.ediv_le_ediv hdur (show toTime - fromTime ≤ 0 by omega)
    rwa [zero_ediv] at this
  rw [bucketCount] at hpos
  omega

/-- **The buckets of a window** have its records, each once. -/
theorem sum_bucketRecords (recs : Records V) (n : Nat) :
    ((List.range n).map fun i => (bucketRecords d (bucketStart d fromTime i) recs).length).sum =
      (windowRecords d fromTime (bucketStart d fromTime n) recs).length := by
  induction n with
  | zero =>
    rw [bucketStart_zero, windowRecords_of_le d le_rfl]
    rfl
  | succ n ih =>
    -- the last bucket is added at the end of the window
    have hstart : fromTime ≤ bucketStart d fromTime n :=
      le_add_of_nonneg_right (mul_nonneg (natCast_nonneg n) hdur.le)
    rw [range_succ, map_append, sum_append, ih, bucketStart_next, map_singleton, sum_singleton]
    exact length_windowRecords_add d hstart (le_add_of_nonneg_right hdur.le) recs

variable (hfrom : truncate fromTime d.bucketDuration = fromTime)
  (hto : truncate toTime d.bucketDuration = toTime)

include hfrom hto

theorem bucketCount_eq (hle : fromTime ≤ toTime) :
    bucketStart d fromTime (bucketCount d fromTime toTime) = toTime := by
  rw [truncate, if_neg (not_le.mpr hdur)] at hfrom hto
  have hfrom' : (fromTime - zeroTime) % d.bucketDuration = 0 := by omega
  have hto' : (toTime - zeroTime) % d.bucketDuration = 0 := by omega
  have hmod : (toTime - fromTime) % d.bucketDuration = 0 := by
    have := sub_emod (toTime - zeroTime) (fromTime - zeroTime) d.bucketDuration
    rw [hfrom', hto'] at this
    rwa [show toTime - zeroTime - (fromTime - zeroTime) = toTime - fromTime by omega] at this
  have hdiv : 0 ≤ (toTime - fromTime) / d.bucketDuration := ediv_nonneg (by omega) hdur.le
  have hmul := mul_ediv_cancel_of_emod_eq_zero hmod
  rw [bucketStart, bucketCount, toNat_of_nonneg hdiv, mul_comm]
  omega

theorem bucketCount_pos (hlt : fromTime < toTime) : 0 < bucketCount d fromTime toTime := by
  rw [Nat.pos_iff_ne_zero]
  intro hzero
  have hend := bucketCount_eq hdur hfrom hto hlt.le
  rw [hzero, bucketStart_zero] at hend
  omega

theorem sum_window (recs : Records V) :
    ((List.range (bucketCount d fromTime toTime)).map fun i =>
      (bucketRecords d (bucketStart d fromTime i) recs).length).sum =
      (windowRecords d fromTime toTime recs).length := by
  rcases le_or_gt fromTime toTime with hle | hgt
  · rw [sum_bucketRecords hdur, bucketCount_eq hdur hfrom hto hle]
  · -- nothing is between the ends
    have hzero : bucketCount d fromTime toTime = 0 := by
      by_contra hpos
      exact absurd (lt_of_bucketCount_pos hdur (Nat.pos_of_ne_zero hpos)) hgt.not_gt
    rw [hzero, windowRecords_of_le d hgt.le]
    rfl

end

end Counts

/-! ### Exact runs -/

namespace RollupStore

variable {s : RollupStore Value} {d : RollupDef} {dims destDims : Nat} {fromTime toTime now : Int}
  {cascade : Bool} {recs recs' : Records Value}

/-- Over a window between buckets the loop is that of its buckets. -/
theorem runWindow_eq (hfrom : truncate fromTime d.bucketDuration = fromTime)
    (hto : truncate toTime d.bucketDuration = toTime) (store : PebbleStore Value) :
    runWindow store d fromTime toTime =
      runBuckets d (bucketCount d fromTime toTime) fromTime store := by
  unfold runWindow
  simp only [hfrom, hto, if_neg (lt_irrefl toTime)]

/-- A run that gets to its window. -/
theorem runRollup_window (htree : Tree s.maxDepth s.defs) (hd : d ∈ s.defs)
    (hsource : s.store.registry d.sourceTID ≠ none)
    (hwindow : ¬ (fromTime = zeroTime ∧ toTime = zeroTime)) {store : PebbleStore Value}
    {stop : Option (Int × RunError)} (hrun : runWindow s.store d fromTime toTime = (store, stop)) :
    s.runRollup d.sourceTID d.id fromTime toTime cascade now =
      if stop.isSome ∨ ¬ cascade then ({ s with store }, stop.map Prod.snd)
      else ({ s with store := (runCascade fromTime toTime (descendants s.defs d.destTID) store).1 },
        (runCascade fromTime toTime (descendants s.defs d.destTID) store).2) := by
  have hzero : ¬ d.sourceTID = 0 := by
    intro heq
    rw [heq] at hsource
    exact hsource s.store.reserved
  have hfind : s.defs.find? (fun d' => d'.id = d.id) = some d := htree.ids.find?_of_mem hd
  unfold runRollup
  rw [if_neg hzero, hfind]
  simp only [ne_eq, not_true_eq_false, if_false, decide_eq_false hwindow, Bool.false_eq_true, hrun]
  rcases stop with - | ⟨b, err⟩
  · simp
  · simp

/-- The rollups below write into other timelines. -/
theorem dest_ne_of_descendant (htree : Tree s.maxDepth s.defs) {d' : RollupDef}
    (hbelow : d' ∈ descendants s.defs d.destTID) : d.destTID ≠ d'.destTID := by
  obtain ⟨hd', hreach⟩ := (htree.mem_descendants_iff d.destTID).mp hbelow
  intro heq
  have hlink : up s.defs d'.destTID = some d'.sourceTID := parent_of_mem htree.forest.unique hd'
  rw [← heq] at hlink
  exact htree.forest.acyclic d.destTID (TransGen.head' hlink hreach)

theorem dest_ne_source (htree : Tree s.maxDepth s.defs) (hd : d ∈ s.defs) :
    d.destTID ≠ d.sourceTID := by
  intro heq
  have hlink : up s.defs d.destTID = some d.sourceTID := parent_of_mem htree.forest.unique hd
  rw [heq] at hlink
  exact htree.forest.acyclic d.sourceTID (.single hlink)

/-- The count in the aggregate of a bucket. -/
theorem count_bucketValue {b : Int} (h : bucketRecords d b recs ≠ []) (x : Option Value) :
    (((bucketValue d b recs).or x).bind fun v : Value => v.nums[4]?).getD 0 =
      ((bucketRecords d b recs).length : ℚ) := by
  rw [bucketValue, if_neg h, Option.some_or, Option.bind_some]
  simp only [rollupValue, rollupNums, count_finish, count_collect]
  rfl

/-- A rollup between two timelines, and a window between buckets. -/
structure Runnable (s : RollupStore Value) (d : RollupDef) (dims destDims : Nat)
    (fromTime toTime : Int) : Prop where
  tree : Tree s.maxDepth s.defs
  mem : d ∈ s.defs
  source : s.store.registry d.sourceTID = some dims
  dest : s.store.registry d.destTID = some destDims
  dims_pos : 1 ≤ dims
  duration : 0 < d.bucketDuration
  first : truncate fromTime d.bucketDuration = fromTime
  last : truncate toTime d.bucketDuration = toTime
  window : ¬ (fromTime = zeroTime ∧ toTime = zeroTime)

section runnable

variable (hr : Runnable s d dims destDims fromTime toTime)

include hr

theorem Runnable.defined : s.store.registry d.sourceTID ≠ none := by
  rw [hr.source]
  exact Option.some_ne_none dims

theorem Runnable.rolled (h : PebbleStore.Holds s.store recs) :
    Rolled d dims destDims s.store recs :=
  ⟨h, hr.source, hr.dest, hr.dims_pos, hr.duration⟩

theorem Runnable.withStore (store : PebbleStore Value) (h : store.registry = s.store.registry) :
    Runnable { s with store } d dims destDims fromTime toTime :=
  { hr with source := h ▸ hr.source, dest := h ▸ hr.dest }

/-- What a run leaves under the keys of the buckets. -/
theorem runRollup_spec (cascade : Bool) (now : Int) {store : PebbleStore Value}
    (hrun : runBuckets d (bucketCount d fromTime toTime) fromTime s.store = (store, none)) :
    (∀ err, (s.runRollup d.sourceTID d.id fromTime toTime cascade now).2 = some err →
        err.isCascade) ∧
      ∀ b, (s.runRollup d.sourceTID d.id fromTime toTime cascade now).1.store.db.get
        (bucketKey d dims b) = store.db.get (bucketKey d dims b) := by
  rw [← runWindow_eq hr.first hr.last] at hrun
  rw [runRollup_window hr.tree hr.mem hr.defined hr.window hrun]
  cases cascade with
  | false =>
    refine ⟨fun err h => ?_, fun b => rfl⟩
    cases h
  | true =>
    have hspec := fun b : Int => runCascade_spec (s := store)
      (e := rollupEvent d dims (b + d.bucketDuration)) fromTime toTime
      fun d' hd' => dest_ne_of_descendant hr.tree hd'
    exact ⟨fun err h => (hspec 0).2 err h, fun b => (hspec b).1⟩

/-- A run over a window it can be run over. -/
theorem rollsUp_of_rollable (h : PebbleStore.Holds s.store recs)
    (hroll : Rollable d dims destDims fromTime toTime recs) :
    RollsUp d dims fromTime toTime recs s.store
      (s.runRollup d.sourceTID d.id fromTime toTime cascade now) := by
  have hrecords : ∀ i < bucketCount d fromTime toTime,
      readRecords d dims (bucketStart d fromTime i) recs =
        bucketRecords d (bucketStart d fromTime i) recs := fun i hi =>
    filter_congr fun r hr => decide_eq_decide.mpr (hroll.same i hi r hr)
  have hvalues : ∀ i < bucketCount d fromTime toTime,
      readValue d dims (bucketStart d fromTime i) recs =
        bucketValue d (bucketStart d fromTime i) recs := by
    intro i hi
    rw [readValue, bucketValue, hrecords i hi]
  have hfits : ∀ i < bucketCount d fromTime toTime,
      readRecords d dims (bucketStart d fromTime i) recs ≠ [] → destDims = dims := by
    intro i hi hread
    rw [hrecords i hi] at hread
    obtain ⟨r, hr⟩ := exists_mem_of_ne_nil _ hread
    obtain ⟨hr, hin⟩ := mem_filter.mp hr
    exact hroll.dims ⟨i, hi, r, hr, of_decide_eq_true hin⟩
  obtain ⟨store, hrun, hwritten⟩ : ∃ store,
      runBuckets d (bucketCount d fromTime toTime) fromTime s.store = (store, none) ∧
        ∀ i < bucketCount d fromTime toTime,
          store.db.get (bucketKey d dims (bucketStart d fromTime i)) =
            (readValue d dims (bucketStart d fromTime i) recs).or
              (s.store.db.get (bucketKey d dims (bucketStart d fromTime i))) := by
    rcases Nat.eq_zero_or_pos (bucketCount d fromTime toTime) with hzero | hpos
    · rw [hzero]
      exact ⟨s.store, rfl, fun i hi => absurd hi (Nat.not_lt_zero i)⟩
    · have hepoch := hroll.epoch (lt_of_bucketCount_pos hr.duration hpos)
      obtain ⟨store, hrun, hwritten, -⟩ := runBuckets_eq (hr.rolled h)
        (dest_ne_source hr.tree hr.mem) hepoch hfits ⟨rfl, fun b => rfl⟩
      exact ⟨store, hrun, hwritten⟩
  obtain ⟨herr, hget⟩ := runRollup_spec hr cascade now hrun
  have hbuckets : ∀ i < bucketCount d fromTime toTime,
      (s.runRollup d.sourceTID d.id fromTime toTime cascade now).1.store.db.get
        (bucketKey d dims (bucketStart d fromTime i)) =
          (bucketValue d (bucketStart d fromTime i) recs).or
            (s.store.db.get (bucketKey d dims (bucketStart d fromTime i))) := by
    intro i hi
    rw [hget, hwritten i hi, hvalues i hi]
  refine ⟨herr, hbuckets, ?_⟩
  -- the counts are those of the records
  have hcounts : ∀ i ∈ List.range (bucketCount d fromTime toTime),
      countAt d dims (bucketStart d fromTime i) recs
        (s.runRollup d.sourceTID d.id fromTime toTime cascade now).1.store =
          ((bucketRecords d (bucketStart d fromTime i) recs).length : ℚ) := by
    intro i hi
    rw [countAt, hbuckets i (mem_range.mp hi)]
    split_ifs with hnil
    · rw [hnil]
      rfl
    · exact count_bucketValue hnil _
  rw [map_congr_left hcounts, ← sum_window hr.duration hr.first hr.last, Nat.cast_list_sum,
    List.map_map]
  rfl

/-- A run that stops at a bucket of its own does not roll up. -/
theorem not_rollsUp {store : PebbleStore Value} {b : Int} {err : RunError}
    (hrun : runBuckets d (bucketCount d fromTime toTime) fromTime s.store =
      (store, some (b, err))) (herr : err.isCascade = false) :
    ¬ RollsUp d dims fromTime toTime recs s.store
      (s.runRollup d.sourceTID d.id fromTime toTime cascade now) := by
  intro hrolls
  rw [← runWindow_eq hr.first hr.last] at hrun
  have hown := hrolls.own err
    (by rw [runRollup_window hr.tree hr.mem hr.defined hr.window hrun]; rfl)
  rw [herr] at hown
  cases hown

/-- What a run that rolls up has read. -/
theorem read_of_rollsUp (h : PebbleStore.Holds s.store recs)
    (hrolls : RollsUp d dims fromTime toTime recs s.store
      (s.runRollup d.sourceTID d.id fromTime toTime cascade now)) :
    (fromTime < toTime → 0 ≤ fromTime) ∧ ∀ i < bucketCount d fromTime toTime,
      (readRecords d dims (bucketStart d fromTime i) recs ≠ [] → destDims = dims) ∧
        (readValue d dims (bucketStart d fromTime i) recs).or
            (s.store.db.get (bucketKey d dims (bucketStart d fromTime i))) =
          (bucketValue d (bucketStart d fromTime i) recs).or
            (s.store.db.get (bucketKey d dims (bucketStart d fromTime i))) := by
  have hepoch : fromTime < toTime → 0 ≤ fromTime := by
    intro hlt
    by_contra hneg
    obtain ⟨err, hbucket⟩ := runBucket_of_neg hr.source hr.dest hr.dims_pos (not_le.mp hneg)
    obtain ⟨n, hn⟩ := Nat.exists_eq_succ_of_ne_zero
      (bucketCount_pos hr.duration hr.first hr.last hlt).ne'
    have hrun : runBuckets d (bucketCount d fromTime toTime) fromTime s.store =
        (s.store, some (fromTime, err)) := by
      rw [hn, runBuckets, hbucket]
    exact not_rollsUp hr hrun (runBucket_spec hbucket) hrolls
  refine ⟨hepoch, fun i hi => ?_⟩
  have hlt := lt_of_bucketCount_pos hr.duration (Nat.zero_lt_of_lt hi)
  have hfits : ∀ i < bucketCount d fromTime toTime,
      readRecords d dims (bucketStart d fromTime i) recs ≠ [] → destDims = dims := by
    intro i hi hread
    by_contra hne
    obtain ⟨store, b, err, hrun, herr⟩ := runBuckets_of_dims (hr.rolled h) (hepoch hlt)
      ⟨i, hi, hread⟩ hne ⟨rfl, fun b => rfl⟩
    exact not_rollsUp hr hrun herr hrolls
  obtain ⟨store, hrun, hwritten, -⟩ := runBuckets_eq (hr.rolled h)
    (dest_ne_source hr.tree hr.mem) (hepoch hlt) hfits ⟨rfl, fun b => rfl⟩
  obtain ⟨-, hget⟩ := runRollup_spec hr cascade now hrun
  refine ⟨hfits i hi, ?_⟩
  rw [← hwritten i hi, ← hget, hrolls.written i hi]

end runnable

/-- The events, each with one field. -/
def oneField (recs : Records Value) : Records Value := recs.map fun r => (r.1, ⟨[0], [], by decide⟩)

theorem length_of_mem_mark {key : Key} {r : Event × Value} (hr : r ∈ mark key (oneField recs)) :
    r.2.nums.length = 1 := by
  obtain ⟨r', hr', rfl⟩ := mem_map.mp hr
  obtain ⟨r₀, -, rfl⟩ := mem_map.mp hr'
  exact length_replicate ..

/-- With one field set and all others zero an aggregate tells whether the event is in it. -/
theorem reads_iff_of_values {store : PebbleStore Value} {b : Int} {r : Event × Value}
    (hr : r ∈ recs) (h : PebbleStore.Holds store (mark r.1.key (oneField recs)))
    (hvalues : (readValue d dims b (mark r.1.key (oneField recs))).or
        (store.db.get (bucketKey d dims b)) =
      (bucketValue d b (mark r.1.key (oneField recs))).or (store.db.get (bucketKey d dims b))) :
    ReadsBucket d dims b r.1 ↔ InBucket d b r.1 := by
  have hone : (r.1, (⟨[0], [], by decide⟩ : Value)) ∈ oneField recs := mem_map.mpr ⟨r, hr, rfl⟩
  have hsorted : (oneField recs).InKeyOrder := inKeyOrder_mark.mp h.pairwise
  have hmarked : (r.1, (⟨[0], [], by decide⟩ : Value).fill (decide (r.1.key = r.1.key))) ∈
      mark r.1.key (oneField recs) := mem_map.mpr ⟨_, hone, rfl⟩
  -- what was there before has one field, an aggregate has seven
  have hother : ∀ res, store.db.get (bucketKey d dims b) ≠ some (rollupValue res) := by
    intro res hget
    have hmem := SortedMap.get_eq_some_iff.mp hget
    rw [h.entries] at hmem
    obtain ⟨r', hr', heq⟩ := mem_map.mp hmem
    have hlength := length_of_mem_mark hr'
    rw [(Prod.mk.inj heq).2] at hlength
    cases hlength
  unfold readValue bucketValue at hvalues
  split_ifs at hvalues with hread hin hin
  · refine iff_of_false (fun hp => ?_) fun hp => ?_
    · exact filter_eq_nil_iff.mp hread _ hmarked (decide_eq_true hp)
    · exact filter_eq_nil_iff.mp hin _ hmarked (decide_eq_true hp)
  · exact absurd hvalues (hother _)
  · exact absurd hvalues.symm (hother _)
  · have hsums := congrArg (fun v : Option Value => v.map fun v => v.nums[3]?) hvalues
    simp only [Option.some_or, Option.map_some, rollupValue, rollupNums, sums_finish, sums_collect]
      at hsums
    have hsum := Option.some.inj (Option.some.inj hsums)
    have hfield : ((0 : Fin 7) : Nat) < [(0 : ℚ)].length := by decide
    exact iff_of_sum_mark (p := ReadsBucket d dims b) (r := (r.1, ⟨[0], [], by decide⟩)) hsorted
      hone hfield hsum

/-- **A run rolls up every source event once** whatever the values are if and only if the window is
from the epoch on and the events between the bounds of each bucket are its source events: those
have to be in the series of zeros, and none of that series is at the end of a bucket.  The
destination needs the dimensions of the source if there is an event. -/
theorem runRollup_exact_iff (htree : Tree s.maxDepth s.defs) (hd : d ∈ s.defs)
    (hsource : s.store.registry d.sourceTID = some dims)
    (hdest : s.store.registry d.destTID = some destDims) (hdims : 1 ≤ dims)
    (hdur : 0 < d.bucketDuration) (hfrom : truncate fromTime d.bucketDuration = fromTime)
    (hto : truncate toTime d.bucketDuration = toTime)
    (hwindow : ¬ (fromTime = zeroTime ∧ toTime = zeroTime))
    (h : PebbleStore.Holds s.store recs) (cascade : Bool) (now : Int) :
    (∀ store' recs', store'.registry = s.store.registry → PebbleStore.Holds store' recs' →
      recs'.map Prod.fst = recs.map Prod.fst →
        RollsUp d dims fromTime toTime recs' store'
          (({ s with store := store' } : RollupStore Value).runRollup d.sourceTID d.id fromTime
            toTime cascade now)) ↔
      Rollable d dims destDims fromTime toTime recs := by
  have hrun : Runnable s d dims destDims fromTime toTime :=
    ⟨htree, hd, hsource, hdest, hdims, hdur, hfrom, hto, hwindow⟩
  constructor
  · intro hall
    have hrolls := hall s.store recs rfl h rfl
    obtain ⟨hepoch, hread⟩ := read_of_rollsUp hrun h hrolls
    have hsame : ∀ i < bucketCount d fromTime toTime, ∀ r ∈ recs,
        (ReadsBucket d dims (bucketStart d fromTime i) r.1 ↔
          InBucket d (bucketStart d fromTime i) r.1) := by
      intro i hi r hr
      have hsorted : (mark r.1.key (oneField recs)).InKeyOrder :=
        inKeyOrder_mark.mpr (pairwise_map.mpr h.pairwise)
      have hevents : (mark r.1.key (oneField recs)).map Prod.fst = recs.map Prod.fst := by
        rw [mark, oneField, List.map_map, List.map_map]
        rfl
      have hholds : PebbleStore.Holds (s.store.withRecords _ hsorted) _ :=
        h.withEvents hsorted hevents
      obtain ⟨-, hmarked⟩ := read_of_rollsUp (hrun.withStore (s.store.withRecords _ hsorted) rfl)
        hholds (hall _ _ rfl hholds hevents)
      exact reads_iff_of_values hr hholds (hmarked i hi).2
    refine ⟨hepoch, hsame, ?_⟩
    rintro ⟨i, hi, r, hr, hin⟩
    refine (hread i hi).1 (ne_nil_of_mem (mem_filter.mpr ⟨hr, ?_⟩))
    exact decide_eq_true ((hsame i hi r hr).mpr hin)
  · intro hroll store' recs' hregistry h' hevents
    exact rollsUp_of_rollable (hrun.withStore store' hregistry) h' (hroll.congr hevents.symm)

/-- For a window and events up to the year 2262: what the run needs. -/
theorem rollable_iff (h : PebbleStore.Holds s.store recs)
    (hsource : s.store.registry d.sourceTID = some dims) (hdims : 1 ≤ dims)
    (hdur : 0 < d.bucketDuration) (hfrom : truncate fromTime d.bucketDuration = fromTime)
    (hto : truncate toTime d.bucketDuration = toTime) (hto' : toTime < 2 ^ 63)
    (hmax : ∀ r ∈ recs, r.1.time < 2 ^ 63) :
    Rollable d dims destDims fromTime toTime recs ↔
      (fromTime < toTime → 0 ≤ fromTime) ∧
      (∀ i < bucketCount d fromTime toTime, ∀ r ∈ recs, InBucket d (bucketStart d fromTime i) r.1 →
        r.1.dims = replicate dims 0 ∧ destDims = dims) ∧
      ∀ i < bucketCount d fromTime toTime, ∀ r ∈ recs, r.1.timeline = d.sourceTID →
        r.1.dims = replicate dims 0 → r.1.time ≠ bucketStart d fromTime (i + 1) := by
  have hnext := bucketStart_next d fromTime
  -- in a bucket from the epoch on the stamps are the times
  have hreads : (fromTime < toTime → 0 ≤ fromTime) → ∀ i < bucketCount d fromTime toTime,
      ∀ r ∈ recs, r.1.timeline = d.sourceTID →
        (ReadsBucket d dims (bucketStart d fromTime i) r.1 ↔ r.1.dims = replicate dims 0 ∧
          bucketStart d fromTime i ≤ r.1.time ∧ r.1.time ≤ bucketStart d fromTime (i + 1)) := by
    intro hepoch i hi r hr hid
    have hlt := lt_of_bucketCount_pos hdur (Nat.zero_lt_of_lt hi)
    have hlow : 0 ≤ bucketStart d fromTime i :=
      add_nonneg (hepoch hlt) (mul_nonneg (natCast_nonneg i) hdur.le)
    have hhigh : bucketStart d fromTime (i + 1) ≤ toTime := by
      rw [← bucketCount_eq hdur hfrom hto hlt.le, bucketStart, bucketStart]
      have := mul_le_mul_of_nonneg_right (ofNat_le.mpr (Nat.succ_le_of_lt hi)) hdur.le
      exact Int.add_le_add_left this fromTime
    have hlength : r.1.dims.length = dims := by
      have hreg := h.registered r hr
      rw [hid, hsource] at hreg
      exact (Option.some.inj hreg).symm
    rw [hnext] at hhigh ⊢
    have hstart := stampOf_eq hlow (by omega)
    have hstop := stampOf_eq (show 0 ≤ bucketStart d fromTime i + d.bucketDuration by omega)
      (by omega)
    have hstamp : (r.1.stamp : Int) = r.1.time := stampOf_eq (h.epoch r hr) (hmax r hr)
    have hlow' : stampOf (bucketStart d fromTime i) ≤ r.1.stamp ↔
        bucketStart d fromTime i ≤ r.1.time := by omega
    have hhigh' : r.1.stamp ≤ stampOf (bucketStart d fromTime i + d.bucketDuration) ↔
        r.1.time ≤ bucketStart d fromTime i + d.bucketDuration := by omega
    rw [readsBucket_iff hlength hid, hlow', hhigh']
  have hin : ∀ i, ∀ r ∈ recs, (InBucket d (bucketStart d fromTime i) r.1 ↔
      r.1.timeline = d.sourceTID ∧ bucketStart d fromTime i ≤ r.1.time ∧
        r.1.time < bucketStart d fromTime (i + 1)) := by
    intro i r hr
    rw [InBucket, Event.readTime_eq (h.epoch r hr) (hmax r hr), hnext]
  constructor
  · rintro ⟨hepoch, hsame, hfits⟩
    refine ⟨hepoch, fun i hi r hr hbucket => ?_, fun i hi r hr hid hzeros hend => ?_⟩
    · have hread := (hsame i hi r hr).mpr hbucket
      exact ⟨((hreads hepoch i hi r hr hbucket.1).mp hread).1, hfits ⟨i, hi, r, hr, hbucket⟩⟩
    · have hstart : bucketStart d fromTime i ≤ r.1.time := by
        rw [hend, hnext]
        omega
      have hbucket := (hsame i hi r hr).mp
        ((hreads hepoch i hi r hr hid).mpr ⟨hzeros, hstart, hend.le⟩)
      exact absurd hend ((hin i r hr).mp hbucket).2.2.ne
  · rintro ⟨hepoch, hzeros, hends⟩
    refine ⟨hepoch, fun i hi r hr => ?_, ?_⟩
    · by_cases hid : r.1.timeline = d.sourceTID
      · rw [hreads hepoch i hi r hr hid, hin i r hr]
        constructor
        · rintro ⟨hdims, hlow, hhigh⟩
          exact ⟨hid, hlow, lt_of_le_of_ne hhigh (hends i hi r hr hid hdims)⟩
        · intro hbucket
          exact ⟨(hzeros i hi r hr ((hin i r hr).mpr hbucket)).1, hbucket.2.1, hbucket.2.2.le⟩
      · exact iff_of_false (not_readsBucket hdims hid) fun hbucket => hid hbucket.1
    · rintro ⟨i, hi, r, hr, hbucket⟩
      exact (hzeros i hi r hr hbucket).2

/-- Buckets of ten nanoseconds. -/
def tens : RollupDef := ⟨"tens", 1, 2, 10, 0⟩

variable (events : List Event)

/-- A timeline that is rolled up, with its events. -/
def tensStore : RollupStore Value :=
  let s := Runs.run step (empty Value)
    [.defineTimeline 1 1, .defineTimeline 2 1, .defineRollup 1 tens 0]
  let appends := events.map fun e => .append e ⟨[1], [], by decide⟩
  { s with store := Runs.run PebbleStore.step s.store appends }

/-- Its records. -/
def tensRecords : Records Value := events.map fun e => (e, ⟨[1], [], by decide⟩)

theorem tree_tensStore : Tree (tensStore events).maxDepth (tensStore events).defs := tree_run rfl _

/-- Two events inside of two buckets. -/
def zeros : List Event := [⟨1, [0], 3⟩, ⟨1, [0], 12⟩]

theorem holds_zeros : PebbleStore.Holds (tensStore zeros).store (tensRecords zeros) :=
  ⟨by decide +kernel, by decide +kernel, by decide +kernel⟩

/-- They are rolled up. -/
theorem runRollup_zeros : RollsUp tens 1 0 20 (tensRecords zeros) (tensStore zeros).store
    ((tensStore zeros).runRollup 1 "tens" 0 20 false 0) :=
  (runRollup_exact_iff (tree_tensStore _) (by decide +kernel) (by decide +kernel)
    (show _ = some 1 by decide +kernel) (by decide) (by decide) (by decide) (by decide) (by decide)
    holds_zeros false 0).mpr
    ((rollable_iff holds_zeros (by decide +kernel) (by decide) (by decide) (by decide) (by decide)
      (by decide) (by decide)).mpr ⟨by decide, by decide +kernel, by decide +kernel⟩) _ _ rfl
    holds_zeros rfl

/-- An event at the end of a bucket, and one of another series. -/
def sevens : List Event := [⟨1, [0], 20⟩, ⟨1, [7], 3⟩]

/-- An event of another series is not rolled up, and one at the end of a bucket is twice: of the
buckets from 0, 10 and 20 the first should have one event, the second none. -/
theorem runRollup_misses_series : PebbleStore.Holds (tensStore sevens).store (tensRecords sevens) ∧
      ([0, 10, 20].map fun b => (((tensStore sevens).runRollup 1 "tens" 0 30
        false 0).1.store.db.get (bucketKey tens 1 b)).bind fun v : Value => v.nums[4]?) =
          [none, some 1, some 1] ∧
      ¬ RollsUp tens 1 0 30 (tensRecords sevens) (tensStore sevens).store
        ((tensStore sevens).runRollup 1 "tens" 0 30 false 0) := by
  refine ⟨⟨by decide +kernel, by decide +kernel, by decide +kernel⟩, by decide +kernel,
    fun hrolls => ?_⟩
  have hwritten := hrolls.written 0 (by decide)
  exact absurd hwritten (by decide +kernel)

end RollupStore

end Xolu.Timeseries
