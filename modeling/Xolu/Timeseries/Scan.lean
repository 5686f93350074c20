/-
# Stored records and the bounds of scans (pkg/timeseries/codec.go and store.go)

A query over a prefix of dimension values pads it with the least and the greatest value to the
dimensions of the timeline, and reads the entries between the two keys.  The entries are the
records of the store in the order of their keys (`Holds`).

Between the bounds there are exactly the events of the timeline that have the prefix, but for the
two corners: the series with the padded prefix itself start and end at the times of the bounds
(`inRange_iff`).  An event of another timeline is between them only after a carry into the
timeline, and then it has fewer dimensions, all zero, and the time zero (`inRange_other_iff`).
-/
import Xolu.Timeseries.Purge

namespace Xolu.Timeseries

open List BigEndian Num64 Event

/-- The errors of queries. -/
inductive QueryError where
  /-- XOLU-TS004. -/
  | notDefined (id : UInt32)
  /-- XOLU-TS007. -/
  | queryDims (given dims : Nat)
  /-- XOLU-TS012. -/
  | limit (given : Int)
  /-- XOLU-TS013. -/
  | scanLimit
  /-- The errors of `EncodeKey`. -/
  | codec (err : TsError)
  /-- `DecodeKey` of a key of another length. -/
  | keyLength (length expected : Nat)
  /-- `DecodeTimestamp` of a key that is too short. -/
  | keyShort
  /-- XOLU-TS009. -/
  | numField (given : Nat)
  /-- XOLU-TS005: the bounds of `Latest`. -/
  | latestBounds
  /-- XOLU-TS030. -/
  | invalidCursor
deriving DecidableEq, Repr

/-- `math.MaxUint64`. -/
def maxDim : UInt64 := 18446744073709551615

def padDims (dv : List UInt64) (dims : Nat) (fillVal : UInt64) : List UInt64 :=
  dv.take dims ++ replicate (dims - dv.length) fillVal

def keySize (dims : Nat) : Nat := 4 + dims * 8 + 8

def decodeKey (key : Key) (dims : Nat) : Except QueryError Event :=
  if key.length ≠ keySize dims then .error (.keyLength key.length (keySize dims))
  else .ok
    { timeline := UInt32.ofNat (decode (key.take 4))
      dims := decodeDims dims (key.drop 4)
      time := wrap (decode (key.drop (tsOffset dims))) }

/-- A time as a key has it. -/
def stampOf (ts : Int) : Nat := uint64 (unixNano ts)

/-- The event as it is read back from its key. -/
def Event.stored (e : Event) : Event := { e with time := e.readTime }

/-- The bounds of a scan over a prefix between two times. -/
def rangeBounds (tid : UInt32) (dims : Nat) (dv : List UInt64) (fromTime toTime : Int) :
    Except TsError (Key × Option Key) := do
  let startKey ← encodeKey tid dims (padDims dv dims 0) fromTime
  let endKey ← encodeKey tid dims (padDims dv dims maxDim) toTime
  .ok (startKey, increment endKey)

variable {e e' : Event} {dv : List UInt64} {dims : Nat} {tid : UInt32} {fromTime toTime : Int}

/-! ### Reading keys back -/

theorem keySize_eq (dims : Nat) : keySize dims = tsOffset dims + 8 := rfl

/-- **A key is read back** as its event. -/
theorem decodeKey_key (e : Event) : decodeKey e.key e.dims.length = .ok e.stored := by
  have hdrop : e.key.drop 4 = (e.dims.flatMap fun d => encode 8 d.toNat) ++ encode 8 e.stamp := by
    unfold key encodePrefixKey
    exact drop_left' (length_encode 4 _)
  have hstamp : e.key.drop (tsOffset e.dims.length) = encode 8 e.stamp :=
    drop_left' (length_encodePrefixKey ..)
  have htimeline : UInt32.ofNat (decode (e.key.take 4)) = e.timeline := by
    rw [take_key, decode_encode,
      Nat.mod_eq_of_lt (show e.timeline.toNat < 256 ^ 4 from e.timeline.toNat_lt),
      UInt32.ofNat_toNat]
  have htime : wrap (decode (encode 8 e.stamp)) = e.readTime := by
    rw [decode_encode, Nat.mod_eq_of_lt (stamp_lt e)]
    exact wrap_uint64 _
  have hlength : ¬ e.key.length ≠ keySize e.dims.length := not_not.mpr (length_key e)
  rw [decodeKey, if_neg hlength, hdrop, decodeDims_append, hstamp, htime, htimeline]
  rfl

theorem decodeKey_of_length (h : e.dims.length ≠ dims) :
    decodeKey e.key dims = .error (.keyLength e.key.length (keySize dims)) := by
  refine if_pos fun hlength => h ?_
  rw [length_key, keySize_eq, tsOffset, tsOffset] at hlength
  omega

theorem stampOf_eq {ts : Int} (h : 0 ≤ ts) (h' : ts < 2 ^ 63) : (stampOf ts : Int) = ts := by
  unfold stampOf unixNano uint64
  rw [wrap_of_inRange (by unfold InRange; omega)]
  omega

theorem stampOf_lt (ts : Int) : stampOf ts < 256 ^ 8 := by
  unfold stampOf uint64
  omega

theorem Event.stored_eq (h : 0 ≤ e.time) (h' : e.time < 2 ^ 63) : e.stored = e := by
  rw [stored, readTime_eq h h']

/-! ### Padded prefixes -/

theorem length_padDims (h : dv.length ≤ dims) (v : UInt64) : (padDims dv dims v).length = dims := by
  rw [padDims, length_append, length_replicate, length_take]
  omega

theorem padDims_eq (h : dv.length ≤ dims) (v : UInt64) :
    padDims dv dims v = dv ++ replicate (dims - dv.length) v := by
  rw [padDims, take_of_length_le h]

theorem padDims_self (dv : List UInt64) (v : UInt64) : padDims dv dv.length v = dv := by
  rw [padDims_eq le_rfl, Nat.sub_self, replicate_zero, append_nil]

theorem forall_mem_padDims_iff (h : dv.length ≤ dims) (v : UInt64) :
    (∀ d ∈ padDims dv dims v, d = v) ↔ ∀ d ∈ dv, d = v := by
  rw [padDims_eq h, forall_mem_append]
  exact and_iff_left fun d hd => eq_of_mem_replicate hd

/-- Dimension values are below the prefix padded with zeros if their first ones are below it. -/
theorem lt_padDims_iff {d : List UInt64} (h : dv.length ≤ d.length) :
    d < padDims dv d.length 0 ↔ d.take dv.length < dv := by
  have hzeros : ¬ d.drop dv.length < replicate (d.length - dv.length) 0 :=
    not_lt_replicate (fun x => UInt64.not_lt_zero) (length_drop ..).ge
  have horder := append_lt_append_iff (c := d.drop dv.length)
    (d := replicate (d.length - dv.length) 0) (length_take_of_le h)
  rwa [take_append_drop, ← padDims_eq h, or_iff_left fun hd => hzeros hd.2] at horder

/-- And above the prefix padded with the greatest value if they are above it. -/
theorem padDims_lt_iff {d : List UInt64} (h : dv.length ≤ d.length) :
    padDims dv d.length maxDim < d ↔ dv < d.take dv.length := by
  have hlast : ¬ replicate (d.length - dv.length) maxDim < d.drop dv.length :=
    not_replicate_lt (fun x => UInt64.not_lt.mpr (Nat.le_pred_of_lt x.toNat_lt)) (length_drop ..).le
  have horder := append_lt_append_iff (c := replicate (d.length - dv.length) maxDim)
    (d := d.drop dv.length) (length_take_of_le h).symm
  rwa [take_append_drop, ← padDims_eq h, or_iff_left fun hd => hlast hd.2] at horder

/-! ### Between the bounds -/

/-- A key an iterator reads. -/
def InBounds (lower : Key) (upper : Option Key) (key : Key) : Prop :=
  ¬ key < lower ∧ upper.all fun u => decide (key < u)
deriving Decidable

/-- The event at the start of a range. -/
def rangeStart (tid : UInt32) (dims : Nat) (dv : List UInt64) (ts : Int) : Event :=
  ⟨tid, padDims dv dims 0, ts⟩

/-- The event at the end of a range. -/
def rangeStop (tid : UInt32) (dims : Nat) (dv : List UInt64) (ts : Int) : Event :=
  ⟨tid, padDims dv dims maxDim, ts⟩

theorem rangeBounds_eq (h : dv.length ≤ dims) (hfrom : 0 ≤ fromTime) (hto : 0 ≤ toTime) :
    rangeBounds tid dims dv fromTime toTime =
      .ok ((rangeStart tid dims dv fromTime).key,
        increment (rangeStop tid dims dv toTime).key) := by
  have hstart := encodeKey_eq (e := rangeStart tid dims dv fromTime) (length_padDims h 0) hfrom
  have hstop := encodeKey_eq (e := rangeStop tid dims dv toTime) (length_padDims h maxDim) hto
  unfold rangeBounds
  simp only [rangeStart, rangeStop] at hstart hstop
  rw [hstart, hstop]
  rfl

theorem rangeBounds_of_neg (h : dv.length ≤ dims) (hneg : fromTime < 0 ∨ toTime < 0) :
    rangeBounds tid dims dv fromTime toTime = .error .beforeEpoch := by
  unfold rangeBounds encodeKey
  rw [length_padDims h, length_padDims h, if_neg (not_not.mpr rfl), if_neg (not_not.mpr rfl)]
  by_cases hfrom : fromTime < 0
  · rw [if_pos hfrom]
    rfl
  · rw [if_neg hfrom, if_pos (hneg.resolve_left hfrom)]
    rfl

/-- **Between the bounds of a range** are the events of the timeline with the prefix; in the first
of its series not before the start, and in the last not after the end. -/
theorem inRange_iff (hdims : e.dims.length = dims) (h : dv.length ≤ dims) :
    InBounds (rangeStart e.timeline dims dv fromTime).key
        (increment (rangeStop e.timeline dims dv toTime).key) e.key ↔
      dv <+: e.dims ∧ (e.dims = padDims dv dims 0 → stampOf fromTime ≤ e.stamp) ∧
        (e.dims = padDims dv dims maxDim → e.stamp ≤ stampOf toTime) := by
  subst hdims
  have hbelow : e.key < (rangeStart e.timeline e.dims.length dv fromTime).key ↔
      e.dims.take dv.length < dv ∨
        e.dims = padDims dv e.dims.length 0 ∧ e.stamp < stampOf fromTime := by
    have horder : e.key < (rangeStart e.timeline e.dims.length dv fromTime).key ↔
        e.Before (rangeStart e.timeline e.dims.length dv fromTime) :=
      key_lt_key_iff rfl (length_padDims h 0).symm
    exact horder.trans (or_congr_left (lt_padDims_iff h))
  have hlength : (rangeStop e.timeline e.dims.length dv toTime).key.length = e.key.length := by
    rw [length_key, length_key]
    exact congrArg (tsOffset · + 8) (length_padDims h maxDim)
  have habove : ((increment (rangeStop e.timeline e.dims.length dv toTime).key).all
      fun u => decide (e.key < u)) ↔
        ¬ (dv < e.dims.take dv.length ∨
          e.dims = padDims dv e.dims.length maxDim ∧ stampOf toTime < e.stamp) := by
    have horder : (rangeStop e.timeline e.dims.length dv toTime).key < e.key ↔
        (rangeStop e.timeline e.dims.length dv toTime).Before e :=
      key_lt_key_iff rfl (length_padDims h maxDim)
    rw [all_increment_iff hlength.le, hlength, take_length, horder]
    exact not_congr (or_congr (padDims_lt_iff h) (and_congr_left' eq_comm))
  rw [InBounds, hbelow, habove, prefix_iff_eq_take]
  constructor
  · rintro ⟨hlow, hhigh⟩
    rw [not_or, not_and, not_lt] at hlow hhigh
    exact ⟨List.le_antisymm hlow.1 hhigh.1, hlow.2, hhigh.2⟩
  · rintro ⟨heq, hlow, hhigh⟩
    rw [← heq]
    have hirrefl : ¬ dv < dv := List.lt_irrefl dv
    exact ⟨not_or.mpr ⟨hirrefl, fun ⟨hd, hlt⟩ => absurd (hlow hd) hlt.not_ge⟩,
      not_or.mpr ⟨hirrefl, fun ⟨hd, hlt⟩ => absurd (hhigh hd) hlt.not_ge⟩⟩

/-- The bytes of a key behind the timeline. -/
def Event.rest (e : Event) : Key := (e.dims.flatMap fun d => encode 8 d.toNat) ++ encode 8 e.stamp

theorem key_eq_append (e : Event) : e.key = encode 4 e.timeline.toNat ++ e.rest := by
  rw [key, encodePrefixKey, append_assoc, rest]

theorem length_rest (e : Event) : e.rest.length = e.dims.length * 8 + 8 := by
  rw [rest, length_append, length_dimBytes, length_encode]

theorem forall_mem_dimBytes_iff {v : UInt64} {x : Byte} (hx : encode 8 v.toNat = replicate 8 x) :
    (∀ y ∈ dv.flatMap fun d => encode 8 d.toNat, y = x) ↔ ∀ d ∈ dv, d = v := by
  simp only [forall_mem_flatMap, forall_mem_encode_iff hx (UInt64.toNat_lt _) v.toNat_lt,
    UInt64.toNat_inj]

theorem forall_mem_rest_iff {v : UInt64} {x : Byte} (hx : encode 8 v.toNat = replicate 8 x) :
    (∀ y ∈ e.rest, y = x) ↔ (∀ d ∈ e.dims, d = v) ∧ e.stamp = v.toNat := by
  rw [rest, forall_mem_append, forall_mem_dimBytes_iff hx,
    forall_mem_encode_iff hx (stamp_lt e) v.toNat_lt]

theorem encode_timeline_lt_iff {tid tid' : UInt32} :
    encode 4 tid.toNat < encode 4 tid'.toNat ↔ tid < tid' := by
  rw [encode_lt_encode_iff tid.toNat_lt tid'.toNat_lt, UInt32.lt_iff_toNat_lt]

theorem encode_timeline_inj {tid tid' : UInt32} :
    encode 4 tid.toNat = encode 4 tid'.toNat ↔ tid = tid' := by
  rw [encode_inj tid.toNat_lt tid'.toNat_lt, UInt32.toNat_inj]

/-- Keys of different timelines are in the order of the timelines. -/
theorem key_lt_key_of_ne (h : e.timeline ≠ e'.timeline) :
    e.key < e'.key ↔ e.timeline < e'.timeline := by
  rw [key_eq_append, key_eq_append, append_lt_append_iff (by simp), encode_timeline_lt_iff,
    encode_timeline_inj]
  simp [h]

/-- **An event of another timeline** is between two keys of a timeline only if it is of the next
one, the greatest value is in all that follows the timeline in the upper key, and the event has
nothing but zeros, and fewer of them. -/
theorem inBounds_other_iff {lower upper : Key} (h : e.timeline ≠ tid) :
    InBounds (encode 4 tid.toNat ++ lower) (increment (encode 4 tid.toNat ++ upper)) e.key ↔
      (∀ x ∈ upper, x = Fin.last 255) ∧ e.timeline.toNat = tid.toNat + 1 ∧
        e.rest.length < upper.length ∧ (∀ d ∈ e.dims, d = 0) ∧ e.stamp = 0 := by
  have hne : encode 4 e.timeline.toNat ≠ encode 4 tid.toNat := fun heq =>
    h (encode_timeline_inj.mp heq)
  have hlow : e.key < encode 4 tid.toNat ++ lower ↔ e.timeline < tid := by
    rw [key_eq_append, append_lt_append_iff (by simp), encode_timeline_lt_iff]
    simp [hne]
  have hhigh : ((increment (encode 4 tid.toNat ++ upper)).all fun u => decide (e.key < u)) ↔
      e.timeline < tid ∨ (∀ x ∈ upper, x = Fin.last 255) ∧ e.timeline.toNat = tid.toNat + 1 ∧
        e.rest.length < upper.length ∧ (∀ d ∈ e.dims, d = 0) ∧ e.stamp = 0 := by
    rw [key_eq_append, all_increment_append_iff (by simp), encode_timeline_lt_iff,
      increment_eq_none_iff, increment_encode_eq_some_iff tid.toNat_lt e.timeline.toNat_lt,
      lt_zeros_iff, forall_mem_rest_iff (v := 0) (by decide)]
    simp [hne]
  rw [InBounds, hlow, hhigh]
  have hlt : e.timeline.toNat = tid.toNat + 1 → ¬ e.timeline < tid := by
    rw [UInt32.lt_iff_toNat_lt]
    omega
  tauto

/-- The same for a range. -/
theorem inRange_other_iff (hne : e.timeline ≠ tid) (h : dv.length ≤ dims) :
    InBounds (rangeStart tid dims dv fromTime).key
        (increment (rangeStop tid dims dv toTime).key) e.key ↔
      ((∀ d ∈ dv, d = maxDim) ∧ stampOf toTime = 18446744073709551615) ∧
        e.timeline.toNat = tid.toNat + 1 ∧ e.dims.length < dims ∧ (∀ d ∈ e.dims, d = 0) ∧
        e.stamp = 0 := by
  have hlength : e.rest.length < (rangeStop tid dims dv toTime).rest.length ↔
      e.dims.length < dims := by
    rw [length_rest, length_rest, rangeStop, length_padDims h]
    omega
  rw [key_eq_append, key_eq_append (rangeStop tid dims dv toTime)]
  refine (inBounds_other_iff hne).trans ?_
  rw [forall_mem_rest_iff (v := maxDim) (by decide), hlength]
  exact and_congr_left' (and_congr_left' (forall_mem_padDims_iff h maxDim))

/-! ### The records of a store -/

/-- Events with what they carry. -/
abbrev Records (V : Type) := List (Event × V)

/-- The records are in the order of their keys. -/
abbrev Records.InKeyOrder {V : Type} (recs : Records V) : Prop :=
  recs.Pairwise fun r r' => r.1.key < r'.1.key

namespace PebbleStore

variable {V : Type} {s : PebbleStore V} {events : List Event} {recs : Records V}

/-- The entries of a store are those of some records in the order of the keys, each of a defined
timeline and not before the epoch. -/
structure Holds (s : PebbleStore V) (recs : Records V) : Prop where
  entries : s.db.entries = recs.map fun r => (r.1.key, r.2)
  registered : ∀ r ∈ recs, s.registry r.1.timeline = some r.1.dims.length
  epoch : ∀ r ∈ recs, 0 ≤ r.1.time

theorem Holds.pairwise (h : Holds s recs) : recs.InKeyOrder := by
  have hsorted := s.db.sorted
  rwa [h.entries, pairwise_map] at hsorted

/-- The entries of a store with stored events are those of records. -/
theorem Stores.exists_holds (h : Stores s events) :
    ∃ recs, Holds s recs ∧ ∀ e, e ∈ recs.map Prod.fst ↔ e ∈ events := by
  obtain ⟨recs, hentries⟩ : s.db.entries ∈
      Set.range (map fun r : {e // e ∈ events} × V => (r.1.1.key, r.2)) := by
    rw [Set.range_list_map]
    intro p hp
    obtain ⟨e, he, hkey⟩ := mem_map.mp ((h.mem_keys p.1).mp (mem_map_of_mem hp))
    exact ⟨(⟨e, he⟩, p.2), Prod.ext hkey rfl⟩
  refine ⟨recs.map fun r => (r.1.1, r.2), ⟨?_, ?_, ?_⟩, fun e => ?_⟩
  · rw [map_map, ← hentries]
    rfl
  · exact forall_mem_map.mpr fun r _ => h.registered r.1 r.1.2
  · exact forall_mem_map.mpr fun r _ => h.epoch r.1 r.1.2
  · rw [map_map, mem_map]
    constructor
    · rintro ⟨r, -, rfl⟩
      exact r.1.2
    · intro he
      -- the entry under its key is that of a record, and the keys tell events apart
      have hkey : e.key ∈ s.db.keys := (h.mem_keys e.key).mpr (mem_map_of_mem he)
      rw [SortedMap.keys, ← hentries, map_map, mem_map] at hkey
      obtain ⟨r, hr, hkey⟩ := hkey
      exact ⟨r, hr, h.injOn r.1 r.1.2 e he hkey⟩

/-- **The entries of a store** are those of its events after every run. -/
theorem holds_run (h : Stores s events) (cs : List (TsCmd V)) :
    ∃ recs, Holds (Runs.run step s cs) recs ∧
      ∀ e, e ∈ recs.map Prod.fst ↔ e ∈ Runs.run (eventsAfter s.registry) events cs :=
  (stores_run h cs).exists_holds

theorem twoSeries_holds : ∃ recs, Holds (twoSeries 5 7) recs :=
  (holds_run (stores_init _ rfl) _).imp fun _ h => h.1

/-- What an iterator reads of the records. -/
theorem Holds.scan_eq (h : Holds s recs) (lower : Key) (upper : Option Key) :
    s.db.scan lower upper =
      (recs.filter fun r => InBounds lower upper r.1.key).map fun r => (r.1.key, r.2) := by
  rw [SortedMap.scan, h.entries, filter_map]
  refine congrArg _ (filter_congr fun r _ => ?_)
  rw [Bool.eq_iff_iff, decide_eq_true_iff]
  simp only [Function.comp, InBounds, Bool.and_eq_true, Bool.not_eq_true',
    decide_eq_false_iff_not]

end PebbleStore

end Xolu.Timeseries
