/-
# Purging a time range (pkg/timeseries/store.go and rollup.go)

`PurgeTimelineRange` scans the keys of a timeline and deletes those whose time is in the range.  A
key whose time is at or after the end of the range ends the scan.  Keys are in the order of the
dimensions first, so the events of a later series are then not looked at; `purgeTimeline`, the
purge by retention, goes on to the next key there.

The purge therefore deletes an event if its time, as its key has it, is in the range and no event
before it in the order of the keys is at or after the end (`mem_purged_iff`).  These are the events
of the range if and only if the series are in the order of time in this sense
(`purgeTimelineRange_exact_iff`).
-/
import Xolu.Lib.Run
import Xolu.Lib.SortedMap
import Xolu.Timeseries.Codec

namespace Xolu.Timeseries

open List BigEndian Num64
open SortedMap hiding keys

/-- A `PebbleStore`: the dimensions of the timelines, the key-value store and the counters. -/
structure PebbleStore (V : Type) where
  registry : UInt32 → Option Nat
  db : SortedMap Key V
  counter : UInt32 → Int
  /-- Timeline 0 is reserved and cannot be defined. -/
  reserved : registry 0 = none

def fillDims (dims : Nat) (val : UInt64) : List UInt64 := replicate dims val

/-- An event of the timeline in the range of time. -/
def Event.In (e : Event) (id : UInt32) (fromTime toTime : Int) : Prop :=
  e.timeline = id ∧ fromTime ≤ e.time ∧ e.time < toTime
deriving Decidable

/-- The keys the scan of `PurgeTimelineRange` deletes. -/
def purgeScan (dims : Nat) (fromTime toTime : Int) : List Key → List Key
  | [] => []
  | key :: keys =>
    match decodeTimestamp key dims with
    -- a key that is too short
    | none => purgeScan dims fromTime toTime keys
    | some ts =>
      if ts < fromTime then purgeScan dims fromTime toTime keys
      -- the end of the scan, although the next series may start before it
      else if ¬ ts < toTime then []
      else key :: purgeScan dims fromTime toTime keys

namespace PebbleStore

variable {V : Type}

section

variable (s : PebbleStore V)

/-- `Append`, with the value of the event encoded. -/
def append (e : Event) (val : V) : Except TsError (PebbleStore V) :=
  if e.timeline = 0 then .error .reservedID
  else if e.time < 0 then .error .beforeEpoch
  else
    match s.registry e.timeline with
    | none => .error (.notDefined e.timeline)
    | some dims =>
      if e.dims.length ≠ dims then .error (.dimsMismatch e.timeline dims e.dims.length)
      else do
        let key ← encodeKey e.timeline dims e.dims e.time
        .ok { s with
          db := s.db.set key val
          counter := Function.update s.counter e.timeline (wrap (s.counter e.timeline + 1)) }

/-- A key is set to a value, and one more event of the timeline is counted. -/
def record (id : UInt32) (key : Key) (val : V) : PebbleStore V :=
  { s with
    db := s.db.set key val
    counter := Function.update s.counter id (wrap (s.counter id + 1)) }

/-- The keys of a timeline that `PurgeTimelineRange` deletes. -/
def purged (id : UInt32) (dims : Nat) (fromTime toTime : Int) : List Key :=
  let startKey := encodePrefixKey id (fillDims dims 0)
  let endKey := increment (encodePrefixKey id (fillDims dims 18446744073709551615))
  purgeScan dims fromTime toTime (s.db.iter startKey endKey)

def purgeTimelineRange (id : UInt32) (fromTime toTime : Int) : Except TsError (PebbleStore V) :=
  if id = 0 then .error .rootTimeline
  else
    match s.registry id with
    | none => .error (.notDefined id)
    | some dims =>
      if ¬ fromTime < toTime then .error .purgeRange
      else
        let deleted := s.purged id dims fromTime toTime
        .ok { s with
          db := s.db.deleteAll deleted
          counter := Function.update s.counter id (wrap (s.counter id - deleted.length)) }

end

/-! ### The stored events -/

/-- The keys of a store are those of some events, each of a defined timeline and not before the
epoch. -/
structure Stores (s : PebbleStore V) (events : List Event) : Prop where
  mem_keys : ∀ key, key ∈ s.db.keys ↔ key ∈ events.map Event.key
  injOn : ∀ e ∈ events, ∀ e' ∈ events, e.key = e'.key → e = e'
  registered : ∀ e ∈ events, s.registry e.timeline = some e.dims.length
  epoch : ∀ e ∈ events, 0 ≤ e.time

variable {s s' : PebbleStore V} {events : List Event} {e : Event} {id : UInt32} {dims : Nat}
  {fromTime toTime : Int}

theorem Stores.filter (h : Stores s events) {p : Event → Bool} (hreg : s'.registry = s.registry)
    (hkeys : ∀ key, key ∈ s'.db.keys ↔ key ∈ (events.filter p).map Event.key) :
    Stores s' (events.filter p) where
  mem_keys := hkeys
  injOn e he e' he' := h.injOn e (mem_of_mem_filter he) e' (mem_of_mem_filter he')
  registered e he := hreg ▸ h.registered e (mem_of_mem_filter he)
  epoch e he := h.epoch e (mem_of_mem_filter he)

/-- What an accepted event is and does. -/
theorem append_eq_ok {val : V} (h : s.append e val = .ok s') :
    0 ≤ e.time ∧ s.registry e.timeline = some e.dims.length ∧ s'.registry = s.registry ∧
      s'.db = s.db.set e.key val := by
  unfold append at h
  split_ifs at h with hzero htime
  split at h
  · cases h
  · next dims hreg =>
    split_ifs at h with hdims
    replace hdims := not_not.mp hdims
    rw [encodeKey_eq hdims (Int.not_lt.mp htime)] at h
    cases h
    exact ⟨Int.not_lt.mp htime, hdims ▸ hreg, rfl, rfl⟩

/-- An accepted event is stored in the place of the one under its key. -/
theorem Stores.append {val : V} (h : Stores s events) (hs : s.append e val = .ok s') :
    Stores s' (e :: events.filter fun e' => e'.key ≠ e.key) := by
  obtain ⟨htime, hreg, hreg', hdb⟩ := append_eq_ok hs
  have hrest : ∀ {e'}, e' ∈ events.filter (fun e' => e'.key ≠ e.key) →
      e' ∈ events ∧ e'.key ≠ e.key := fun he' => by simpa using he'
  refine ⟨fun key => ?_, ?_, ?_, ?_⟩
  · rw [hdb, mem_keys_set, h.mem_keys]
    grind
  · intro e₁ he₁ e₂ he₂ heq
    rcases mem_cons.mp he₁ with rfl | he₁ <;> rcases mem_cons.mp he₂ with rfl | he₂
    · rfl
    · exact absurd heq.symm (hrest he₂).2
    · exact absurd heq (hrest he₁).2
    · exact h.injOn e₁ (hrest he₁).1 e₂ (hrest he₂).1 heq
  · rw [hreg']
    exact forall_mem_cons.mpr ⟨hreg, fun e' he' => h.registered e' (hrest he').1⟩
  · exact forall_mem_cons.mpr ⟨htime, fun e' he' => h.epoch e' (hrest he').1⟩

/-- A purge of a defined timeline over a range. -/
theorem purgeTimelineRange_eq (hreg : s.registry id = some dims) (hrange : fromTime < toTime) :
    s.purgeTimelineRange id fromTime toTime =
      .ok { s with
        db := s.db.deleteAll (s.purged id dims fromTime toTime)
        counter := Function.update s.counter id
          (wrap (s.counter id - (s.purged id dims fromTime toTime).length)) } := by
  have hid : id ≠ 0 := by
    rintro rfl
    exact absurd (s.reserved.symm.trans hreg) (Option.some_ne_none dims).symm
  unfold purgeTimelineRange
  rw [if_neg hid]
  simp only [hreg]
  rw [if_neg (not_not.mpr hrange)]

/-! ### What a purge deletes -/

/-- **The scan** deletes a key with a time in the range if no key before it has one at or after the
end. -/
theorem mem_purgeScan {keys : List Key} (hsorted : keys.Pairwise (· < ·))
    (hrange : fromTime < toTime) (key : Key) : key ∈ purgeScan dims fromTime toTime keys ↔
      (∃ ts, (key ∈ keys ∧ decodeTimestamp key dims = some ts) ∧ fromTime ≤ ts ∧ ts < toTime) ∧
        ∀ key' ts, key' ∈ keys ∧ decodeTimestamp key' dims = some ts → key' < key →
          ts < toTime := by
  induction keys with
  | nil => simp [purgeScan]
  | cons first keys ih =>
    obtain ⟨hfirst, hsorted⟩ := pairwise_cons.mp hsorted
    rw [purgeScan]
    -- what the first key does to the others: nothing, unless it ends the scan
    rcases hts : decodeTimestamp first dims with - | ts
    · grind
    · simp only
      split_ifs with hfrom hto
      · grind
      · -- all the others are behind it
        grind
      · -- none is before it
        grind

theorem flatMap_fillDims {v : UInt64} {b : Byte}
    (h : encode 8 v.toNat = replicate 8 b) (dims : Nat) :
    ((fillDims dims v).flatMap fun d => encode 8 d.toNat) = replicate (dims * 8) b := by
  unfold fillDims
  induction dims with
  | zero => rfl
  | succ n ih => rw [replicate_succ, flatMap_cons, ih, h, replicate_append_replicate,
      Nat.succ_mul, Nat.add_comm]

/-- **The bounds of the scan** admit the keys of the timeline. -/
theorem inBounds_iff {key : Key} (hlength : tsOffset dims ≤ key.length) :
    (¬ key < encodePrefixKey id (fillDims dims 0) ∧
      (increment (encodePrefixKey id (fillDims dims 18446744073709551615))).all
        fun u => decide (key < u)) ↔ key.take 4 = encode 4 id.toNat := by
  have hmin := flatMap_fillDims (v := 0) (b := 0) (by decide) dims
  have hmax := flatMap_fillDims (v := 18446744073709551615) (b := Fin.last 255) (by decide) dims
  have hoffset : tsOffset dims = 4 + dims * 8 := rfl
  have hfour : (key.take 4).length = 4 := length_take_of_le (by omega)
  have hrest : dims * 8 ≤ (key.drop 4).length := by rw [length_drop]; omega
  have hbelow : ¬ key < encodePrefixKey id (fillDims dims 0) ↔
      ¬ key.take 4 < encode 4 id.toNat := by
    conv_lhs => rw [← take_append_drop 4 key]
    rw [encodePrefixKey, hmin, append_lt_append_iff (by rw [hfour, length_encode])]
    simp [not_lt_replicate Fin.not_lt_zero hrest]
  have habove : ((increment (encodePrefixKey id (fillDims dims 18446744073709551615))).all
      fun u => decide (key < u)) ↔ ¬ encode 4 id.toNat < key.take 4 := by
    have hleads : (encodePrefixKey id (fillDims dims 18446744073709551615)).length =
        4 + dims * 8 := by
      rw [encodePrefixKey, hmax, length_append, length_encode, length_replicate]
    have hlast : ¬ replicate (dims * 8) (Fin.last 255) < (key.drop 4).take (dims * 8) :=
      not_replicate_lt (fun x => (Fin.le_last x).not_gt) (length_take_le ..)
    rw [all_increment_iff (by omega), hleads, take_add, encodePrefixKey, hmax,
      append_lt_append_iff (by rw [hfour, length_encode])]
    simp only [hlast, and_false, or_false]
  rw [hbelow, habove, not_lt, not_lt]
  exact ⟨fun h => le_antisymm h.2 h.1, fun h => ⟨h.ge, h.le⟩⟩

/-- The events of the timeline are the ones the scan reads a time of. -/
theorem Stores.scanned_iff (h : Stores s events) (hreg : s.registry id = some dims)
    (he : e ∈ events) {ts : Int} : e.key ∈ s.db.iter (encodePrefixKey id (fillDims dims 0))
        (increment (encodePrefixKey id (fillDims dims 18446744073709551615))) ∧
      decodeTimestamp e.key dims = some ts ↔ e.timeline = id ∧ ts = e.readTime := by
  have hmem : e.key ∈ s.db.keys := (h.mem_keys e.key).mpr (mem_map_of_mem he)
  rw [mem_iter, and_iff_right hmem]
  constructor
  · rintro ⟨hbounds, hts⟩
    -- a key of another timeline may be too short to be told apart by the bounds, but then it has
    -- no time
    have hlength : tsOffset dims + 8 ≤ e.key.length := by
      refine Nat.le_of_not_lt fun hlt => ?_
      rw [decodeTimestamp_eq_none hlt] at hts
      cases hts
    rw [inBounds_iff (Nat.le_of_add_right_le hlength), take_key,
      encode_inj e.timeline.toNat_lt id.toNat_lt, UInt32.toNat_inj] at hbounds
    obtain rfl := hbounds
    cases (h.registered e he).symm.trans hreg
    rw [decodeTimestamp_key] at hts
    exact ⟨rfl, (Option.some.inj hts).symm⟩
  · rintro ⟨rfl, rfl⟩
    cases (h.registered e he).symm.trans hreg
    refine ⟨(inBounds_iff ?_).mpr (take_key e), decodeTimestamp_key e⟩
    rw [length_key]
    exact Nat.le_add_right _ _

/-- No event of the timeline before this one is at or after the end. -/
def Reached (events : List Event) (id : UInt32) (toTime : Int) (e : Event) : Prop :=
  ∀ e' ∈ events, e'.timeline = id → e'.Before e → e'.readTime < toTime
deriving Decidable

/-- **The events a purge deletes.** -/
theorem Stores.mem_purged_iff (h : Stores s events) (hreg : s.registry id = some dims)
    (hrange : fromTime < toTime) (he : e ∈ events) : e.key ∈ s.purged id dims fromTime toTime ↔
      e.timeline = id ∧ (fromTime ≤ e.readTime ∧ e.readTime < toTime) ∧
        Reached events id toTime e := by
  have hscanned : ∀ {e'}, e' ∈ events → ∀ {ts : Int}, _ ↔ e'.timeline = id ∧ ts = e'.readTime :=
    fun he' _ => h.scanned_iff hreg he'
  have hbefore : ∀ e' ∈ events, e.timeline = id → e'.timeline = id →
      (e'.key < e.key ↔ e'.Before e) := by
    intro e' he' hid hid'
    refine key_lt_key_iff (hid'.trans hid.symm) (Option.some.inj ?_)
    rw [← h.registered e' he', ← h.registered e he, hid, hid']
  rw [purged, mem_purgeScan (s.db.pairwise_iter _ _) hrange]
  simp only [hscanned he]
  constructor
  · rintro ⟨⟨_, ⟨hid, rfl⟩, hin⟩, hstop⟩
    refine ⟨hid, hin, fun e' he' hid' hlt => ?_⟩
    exact hstop e'.key e'.readTime ((hscanned he').mpr ⟨hid', rfl⟩)
      ((hbefore e' he' hid hid').mpr hlt)
  · rintro ⟨hid, hin, hreached⟩
    refine ⟨⟨e.readTime, ⟨hid, rfl⟩, hin⟩, fun key' ts hkey' hlt => ?_⟩
    -- every key of the store is that of an event
    obtain ⟨e', he', rfl⟩ := mem_map.mp ((h.mem_keys key').mp (mem_iter.mp hkey'.1).1)
    obtain ⟨hid', rfl⟩ := (hscanned he').mp hkey'
    exact hreached e' he' hid' ((hbefore e' he' hid hid').mp hlt)

/-! ### Runs of a store -/

variable (registry : UInt32 → Option Nat)

/-- A store without events. -/
def init (hreserved : registry 0 = none) : PebbleStore V :=
  ⟨registry, .empty, fun _ => 0, hreserved⟩

/-- The calls. -/
inductive TsCmd (V : Type) where
  | append (e : Event) (val : V)
  | purgeTimelineRange (id : UInt32) (fromTime toTime : Int)

/-- A call that fails writes nothing. -/
def step (s : PebbleStore V) (c : TsCmd V) : PebbleStore V :=
  let result := match c with
    | .append e val => s.append e val
    | .purgeTimelineRange id fromTime toTime => s.purgeTimelineRange id fromTime toTime
  match result with
  | .ok s' => s'
  | .error _ => s

theorem stores_init (h : registry 0 = none) : Stores (init registry h : PebbleStore V) [] :=
  ⟨fun _ => Iff.rfl, by simp, by simp, by simp⟩

/-- The events after a call: one that is accepted takes the place of the event under its key, and a
purge deletes those of the range that its scan gets to. -/
def eventsAfter (registry : UInt32 → Option Nat) (events : List Event) : TsCmd V → List Event
  | .append e _ =>
    if 0 ≤ e.time ∧ registry e.timeline = some e.dims.length then
      e :: events.filter fun e' => e'.key ≠ e.key
    else events
  | .purgeTimelineRange id fromTime toTime =>
    if (registry id).isSome ∧ fromTime < toTime then
      events.filter fun e => ¬ (e.timeline = id ∧ (fromTime ≤ e.readTime ∧ e.readTime < toTime) ∧
        Reached events id toTime e)
    else events

theorem exists_append (val : V) (htime : 0 ≤ e.time)
    (hreg : s.registry e.timeline = some e.dims.length) : ∃ s', s.append e val = .ok s' := by
  have hzero : e.timeline ≠ 0 := fun h => nomatch (h ▸ s.reserved).symm.trans hreg
  rw [append, if_neg hzero, if_neg (Int.not_lt.mpr htime), hreg]
  simp only [ne_eq, not_true_eq_false, if_false, encodeKey_eq rfl htime]
  exact ⟨_, rfl⟩

theorem Stores.step (h : Stores s events) (c : TsCmd V) :
    (step s c).registry = s.registry ∧ Stores (step s c) (eventsAfter s.registry events c) := by
  cases c with
  | append e val =>
    rw [eventsAfter]
    split_ifs with hok
    · obtain ⟨s', hs⟩ := exists_append val hok.1 hok.2
      simpa only [PebbleStore.step, hs] using ⟨(append_eq_ok hs).2.2.1, h.append hs⟩
    · rcases hs : s.append e val with err | s'
      · simpa only [PebbleStore.step, hs, true_and] using h
      · obtain ⟨htime, hreg, -⟩ := append_eq_ok hs
        exact absurd ⟨htime, hreg⟩ hok
  | purgeTimelineRange id fromTime toTime =>
    rw [eventsAfter]
    split_ifs with hok
    · obtain ⟨dims, hreg⟩ := Option.isSome_iff_exists.mp hok.1
      simp only [PebbleStore.step, purgeTimelineRange_eq hreg hok.2, true_and]
      refine h.filter rfl fun key => ?_
      have hpurged : ∀ e ∈ events, _ ↔ _ := fun e he => h.mem_purged_iff hreg hok.2 he
      simp only [mem_keys_deleteAll, h.mem_keys, mem_map, mem_filter, decide_eq_true_eq]
      grind
    · have hsame : PebbleStore.step s (.purgeTimelineRange id fromTime toTime) = s := by
        simp only [PebbleStore.step, purgeTimelineRange]
        rcases hreg : s.registry id with - | dims
        · split_ifs <;> rfl
        · have hrange : ¬ fromTime < toTime := fun h => hok ⟨Option.isSome_of_eq_some hreg, h⟩
          split_ifs <;> rfl
      rw [hsame]
      exact ⟨rfl, h⟩

theorem stores_run (h : Stores s events) (cs : List (TsCmd V)) :
    Stores (Runs.run step s cs) (Runs.run (eventsAfter s.registry) events cs) := by
  refine (foldl_rel (r := fun s' events' => s'.registry = s.registry ∧ Stores s' events')
    ⟨rfl, h⟩ fun c _ s' events' hs' => ?_).2
  obtain ⟨hregistry, hstores⟩ := hs'.2.step c
  exact ⟨hregistry.trans hs'.1, hs'.1 ▸ hstores⟩

/-! ### Exact purges -/

/-- The events of the range are stored with a time in the range and after no event at or after its
end; what is stored with a time in the range by mistake comes after such an event. -/
structure InOrder (events : List Event) (id : UInt32) (fromTime toTime : Int) : Prop where
  within : ∀ e ∈ events, e.In id fromTime toTime →
    (fromTime ≤ e.readTime ∧ e.readTime < toTime) ∧ Reached events id toTime e
  outside : ∀ e ∈ events, ¬ e.In id fromTime toTime → e.timeline = id →
    fromTime ≤ e.readTime ∧ e.readTime < toTime → ¬ Reached events id toTime e

/-- **A range purge is exact** if and only if the events are in order. -/
theorem purgeTimelineRange_exact_iff (h : Stores s events) (hreg : s.registry id = some dims)
    (hrange : fromTime < toTime) : (∃ s', s.purgeTimelineRange id fromTime toTime = .ok s' ∧
      s'.db = s.db.deleteAll ((events.filter fun e => e.In id fromTime toTime).map Event.key)) ↔
      InOrder events id fromTime toTime := by
  rw [purgeTimelineRange_eq hreg hrange]
  have hin : ∀ e ∈ events, e.key ∈ (events.filter fun e => e.In id fromTime toTime).map Event.key ↔
      e.In id fromTime toTime := by
    intro e he
    simp only [mem_map, mem_filter, decide_eq_true_eq]
    refine ⟨?_, fun hin => ⟨e, ⟨he, hin⟩, rfl⟩⟩
    rintro ⟨e', ⟨he', hin⟩, heq⟩
    exact h.injOn e' he' e he heq ▸ hin
  have hexact : s.db.deleteAll (s.purged id dims fromTime toTime) =
      s.db.deleteAll ((events.filter fun e => e.In id fromTime toTime).map Event.key) ↔
        ∀ e ∈ events, (e.timeline = id ∧ (fromTime ≤ e.readTime ∧ e.readTime < toTime) ∧
          Reached events id toTime e) ↔ e.In id fromTime toTime := by
    rw [deleteAll_eq_iff]
    simp only [h.mem_keys, forall_mem_map]
    refine forall₂_congr fun e he => ?_
    rw [h.mem_purged_iff hreg hrange he, hin e he]
  constructor
  · rintro ⟨s', hs', hdb⟩
    cases hs'
    have hiff := hexact.mp hdb
    exact ⟨fun e he hrange => ((hiff e he).mpr hrange).2,
      fun e he hout hid hread hreached => hout ((hiff e he).mp ⟨hid, hread, hreached⟩)⟩
  · intro horder
    refine ⟨_, rfl, hexact.mpr fun e he => ?_⟩
    refine ⟨?_, fun hrange => ⟨hrange.1, horder.within e he hrange⟩⟩
    rintro ⟨hid, hread, hreached⟩
    by_contra hout
    exact horder.outside e he hout hid hread hreached

/-- A timeline with an event in each of two series. -/
def twoSeries (t₁ t₂ : Int) : PebbleStore Unit :=
  Runs.run step (init (fun id => if id = 1 then some 1 else none) rfl)
    [.append ⟨1, [1], t₁⟩ (), .append ⟨1, [2], t₂⟩ ()]

theorem twoSeries_purged_exactly : ∃ s', (twoSeries 5 7).purgeTimelineRange 1 0 10 = .ok s' ∧
      s'.db = (twoSeries 5 7).db.deleteAll
        ((([⟨1, [1], 5⟩, ⟨1, [2], 7⟩] : List Event).filter fun e => e.In 1 0 10).map Event.key) :=
  have hkeys : (twoSeries 5 7).db.keys =
      ([⟨1, [1], 5⟩, ⟨1, [2], 7⟩] : List Event).map Event.key := by decide +kernel
  have hstores : Stores (twoSeries 5 7) [⟨1, [1], 5⟩, ⟨1, [2], 7⟩] :=
    ⟨fun _ => by rw [hkeys], by decide +kernel, by decide +kernel, by decide +kernel⟩
  (purgeTimelineRange_exact_iff hstores rfl (by decide)).mpr ⟨by decide +kernel, by decide +kernel⟩

/-- The event of the first series ends the scan, and the one of the second series stays. -/
theorem purge_leaves_second_series : (⟨1, [2], 5⟩ : Event).In 1 0 10 ∧
      ((twoSeries 20 5).purgeTimelineRange 1 0 10).toOption.map (fun s => s.db.keys) =
        some [(⟨1, [1], 20⟩ : Event).key, (⟨1, [2], 5⟩ : Event).key] := by
  decide +kernel

end PebbleStore

end Xolu.Timeseries
