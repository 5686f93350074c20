/-
# Keys of events (pkg/timeseries/codec.go)

An event of a timeline is stored under a key: the timeline, the values of its dimensions and its
time, all big-endian.  Keys of one timeline are thus ordered by dimensions first and by time within
a series (`key_lt_key_iff`).

The time is in nanoseconds, and a key has it modulo 2^64; it is read back as a signed number.  A
time is read back as it is up to the year 2262.
-/
import Xolu.Lib.BigEndian
import Xolu.Lib.Num64

namespace Xolu.Timeseries

open List BigEndian Num64

/-- A key of the store. -/
abbrev Key := List Byte

/-- The errors. -/
inductive TsError where
  /-- `EncodeKey` with another number of dimension values. -/
  | dimCount (dims given : Nat)
  /-- XOLU-TS005. -/
  | beforeEpoch
  /-- XOLU-TS018. -/
  | reservedID
  /-- XOLU-TS022. -/
  | rootTimeline
  /-- XOLU-TS004. -/
  | notDefined (id : UInt32)
  /-- XOLU-TS007. -/
  | dimsMismatch (id : UInt32) (dims given : Nat)
  /-- A range whose end is not after its start. -/
  | purgeRange
deriving DecidableEq, Repr

/-- `UnixNano` of a time in nanoseconds since the epoch. -/
def unixNano (ts : Int) : Int := wrap ts

/-- A signed number as an unsigned one. -/
def uint64 (n : Int) : Nat := (n % 18446744073709551616).toNat

def tsOffset (dims : Nat) : Nat := 4 + dims * 8

def encodePrefixKey (tid : UInt32) (dv : List UInt64) : Key :=
  encode 4 tid.toNat ++ dv.flatMap fun d => encode 8 d.toNat

def encodeKey (tid : UInt32) (dims : Nat) (dv : List UInt64) (ts : Int) : Except TsError Key :=
  if dims ≠ dv.length then .error (.dimCount dims dv.length)
  else if ts < 0 then .error .beforeEpoch
  else .ok (encodePrefixKey tid dv ++ encode 8 (uint64 (unixNano ts)))

/-- `DecodeTimestamp`; a key that is too short has none. -/
def decodeTimestamp (key : Key) (dims : Nat) : Option Int :=
  if key.length < tsOffset dims + 8 then none
  else some (wrap (decode ((key.drop (tsOffset dims)).take 8)))

/-- An `Event`, without its values. -/
structure Event where
  timeline : UInt32
  dims : List UInt64
  time : Int
deriving DecidableEq, Repr

variable (e : Event)

/-- The time of an event as its key has it. -/
def Event.stamp : Nat := uint64 (unixNano e.time)

/-- The time of an event as it is read back. -/
def Event.readTime : Int := unixNano e.time

/-- The key of an event. -/
def Event.key : Key := encodePrefixKey e.timeline e.dims ++ encode 8 e.stamp

theorem encodeKey_eq {e : Event} {dims : Nat} (hdims : e.dims.length = dims) (htime : 0 ≤ e.time) :
    encodeKey e.timeline dims e.dims e.time = .ok e.key := by
  rw [encodeKey, if_neg (not_not.mpr hdims.symm), if_neg (Int.not_lt.mpr htime)]
  rfl

/-- Up to the year 2262 a time is read back as it is. -/
theorem Event.readTime_eq {e : Event} (h : 0 ≤ e.time) (h' : e.time < 2 ^ 63) :
    e.readTime = e.time := wrap_of_inRange (by unfold InRange; omega)

/-! ### Lengths and reads -/

theorem length_dimBytes (dv : List UInt64) :
    (dv.flatMap fun d => encode 8 d.toNat).length = dv.length * 8 := by
  induction dv with
  | nil => rfl
  | cons d dv ih =>
    rw [flatMap_cons, length_append, length_encode, ih, length_cons]
    omega

theorem length_encodePrefixKey (tid : UInt32) (dv : List UInt64) :
    (encodePrefixKey tid dv).length = tsOffset dv.length := by
  rw [encodePrefixKey, length_append, length_encode, length_dimBytes, tsOffset]

@[simp] theorem length_key : e.key.length = tsOffset e.dims.length + 8 := by
  rw [Event.key, length_append, length_encodePrefixKey, length_encode]

/-- The first bytes of a key are its timeline. -/
theorem take_key : e.key.take 4 = encode 4 e.timeline.toNat := by
  unfold Event.key encodePrefixKey
  exact take_left' (length_encode 4 _)

theorem stamp_lt : e.stamp < 256 ^ 8 := by
  unfold Event.stamp uint64
  omega

/-- A signed number is read back from the unsigned one. -/
theorem wrap_uint64 (n : Int) : wrap (uint64 (wrap n)) = wrap n := by
  unfold uint64 wrap
  omega

/-- What is read from a key is the time of its event. -/
theorem decodeTimestamp_key : decodeTimestamp e.key e.dims.length = some e.readTime := by
  have hstamp : (e.key.drop (tsOffset e.dims.length)).take 8 = encode 8 e.stamp := by
    rw [Event.key, drop_left' (length_encodePrefixKey ..)]
    exact take_of_length_le (length_encode 8 _).le
  rw [decodeTimestamp, length_key, if_neg (Nat.lt_irrefl _), hstamp, decode_encode,
    Nat.mod_eq_of_lt (stamp_lt e)]
  exact congrArg some (wrap_uint64 _)

/-- A key that is too short has no time. -/
theorem decodeTimestamp_eq_none {key : Key} {dims : Nat} (h : key.length < tsOffset dims + 8) :
    decodeTimestamp key dims = none := if_pos h

/-! ### The order of keys -/

theorem dimBytes_lt_iff {dv dv' : List UInt64} (h : dv.length = dv'.length) :
    (dv.flatMap fun d => encode 8 d.toNat) < (dv'.flatMap fun d => encode 8 d.toNat) ↔
      dv < dv' := by
  induction dv generalizing dv' with
  | nil =>
    obtain rfl := length_eq_zero_iff.mp h.symm
    simp
  | cons d dv ih =>
    cases dv' with
    | nil => cases h
    | cons d' dv' =>
      rw [length_cons, length_cons, Nat.add_right_cancel_iff] at h
      rw [flatMap_cons, flatMap_cons, append_lt_append_iff (by simp), ih h,
        encode_lt_encode_iff d.toNat_lt d'.toNat_lt, encode_inj d.toNat_lt d'.toNat_lt,
        cons_lt_cons_iff, UInt64.lt_iff_toNat_lt, UInt64.toNat_inj]

/-- The dimension values of a key, eight bytes each. -/
def decodeDims : Nat → Key → List UInt64
  | 0, _ => []
  | n + 1, bytes => UInt64.ofNat (decode (bytes.take 8)) :: decodeDims n (bytes.drop 8)

theorem decodeDims_append (dv : List UInt64) (rest : Key) :
    decodeDims dv.length ((dv.flatMap fun d => encode 8 d.toNat) ++ rest) = dv := by
  induction dv with
  | nil => rfl
  | cons d dv ih =>
    rw [flatMap_cons, append_assoc, length_cons, decodeDims,
      take_left' (length_encode 8 _), drop_left' (length_encode 8 _), ih, decode_encode,
      Nat.mod_eq_of_lt (show d.toNat < 256 ^ 8 from d.toNat_lt), UInt64.ofNat_toNat]

theorem dimBytes_inj {dv dv' : List UInt64} (h : dv.length = dv'.length) :
    (dv.flatMap fun d => encode 8 d.toNat) = (dv'.flatMap fun d => encode 8 d.toNat) ↔
      dv = dv' := by
  refine ⟨fun heq => ?_, fun heq => heq ▸ rfl⟩
  have hdv := decodeDims_append dv []
  rw [heq, h] at hdv
  exact hdv.symm.trans (decodeDims_append dv' [])

/-- An event comes before another of its timeline: by its dimensions, and by its time in a
series. -/
def Event.Before (e e' : Event) : Prop := e.dims < e'.dims ∨ e.dims = e'.dims ∧ e.stamp < e'.stamp
deriving Decidable

/-- **The keys of a timeline** are in the order of the events. -/
theorem key_lt_key_iff {e e' : Event} (h : e.timeline = e'.timeline)
    (hdims : e.dims.length = e'.dims.length) : e.key < e'.key ↔ e.Before e' := by
  have hlength : (e.dims.flatMap fun d => encode 8 d.toNat).length =
      (e'.dims.flatMap fun d => encode 8 d.toNat).length := by
    rw [length_dimBytes, length_dimBytes, hdims]
  unfold Event.key encodePrefixKey Event.Before
  -- part by part: the timeline is the same, then the dimensions, then the time
  rw [append_assoc, append_assoc, append_lt_append_iff (by simp), h,
    append_lt_append_iff hlength, dimBytes_lt_iff hdims, dimBytes_inj hdims,
    encode_lt_encode_iff (stamp_lt e) (stamp_lt e')]
  simp

end Xolu.Timeseries
