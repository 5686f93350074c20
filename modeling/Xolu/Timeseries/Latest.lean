/-
# The latest events, page by page (pkg/timeseries/store.go)

`Latest` reads the entries with a prefix of dimension values from the last one down, or from a
cursor down, decodes each and keeps those in the bounds of time.  A full page that is not the last
one returns the key of its last event as the cursor of the next page.

The pages of an unchanging store give every matching event once, in descending order of the keys
(`latest_lossless_iff`), with two exceptions.  Both are about the upper bound, which is the key
prefix with the greatest dimension values plus one.  With the greatest value in the whole prefix
the addition carries into the timeline, and a short key of the next timeline is below the bound;
and in the last timeline there is then no bound, with which every cursor is refused.
-/
import Xolu.Lib.Paging
import Xolu.Timeseries.Query

namespace Xolu.Timeseries

open List BigEndian Num64 Paging Event PebbleStore

structure LatestQuery where
  timeline : UInt32
  dims : List UInt64
  /-- Not positive for the default. -/
  n : Int
  /-- The zero time is no bound. -/
  fromTime : Option Int
  toTime : Option Int
  cursor : Option Key
deriving DecidableEq, Repr

namespace LatestQuery

variable (q : LatestQuery)

/-- The number of results or its default. -/
def pageSize : Int := if q.n ≤ 0 then 10 else q.n

/-- The bounds of time are in the wrong order. -/
def inverted : Bool := q.fromTime.any fun lower => q.toTime.any fun upper => decide (upper < lower)

/-- The time is not in the bounds. -/
def skips (ts : Int) : Bool :=
  q.fromTime.any (fun lower => decide (ts < lower)) ||
    q.toTime.any (fun upper => decide (upper < ts))

end LatestQuery

/-- The loop of `Latest`: the results, the key of the last one and the entries not read. -/
def latestLoop {V : Type} (q : LatestQuery) (dims n : Nat) :
    Records V → Option Key → List (Key × V) →
      Except QueryError (Records V × Option Key × List (Key × V))
  | results, lastKey, [] => .ok (results, lastKey, [])
  | results, lastKey, entry :: entries =>
    if ¬ results.length < n then .ok (results, lastKey, entry :: entries)
    else
      match decodeEntry entry dims with
      | .error err => .error err
      | .ok r =>
        if q.skips r.1.time then latestLoop q dims n results lastKey entries
        else latestLoop q dims n (results ++ [r]) (some entry.1) entries

/-- The loop behind a full page: there is a further matching event. -/
def latestMore {V : Type} (q : LatestQuery) (dims : Nat) : List (Key × V) → Except QueryError Bool
  | [] => .ok false
  | entry :: entries =>
    match decodeEntry entry dims with
    | .error err => .error err
    | .ok r => if q.skips r.1.time then latestMore q dims entries else .ok true

/-- The lower bound of a prefix. -/
def prefixStart (tid : UInt32) (dims : Nat) (dv : List UInt64) : Key :=
  encodePrefixKey tid (padDims dv dims 0)

/-- The upper bound. -/
def prefixStop (tid : UInt32) (dims : Nat) (dv : List UInt64) : Option Key :=
  increment (encodePrefixKey tid (padDims dv dims maxDim))

/-- The cursor is below the lower bound, or not below the upper one; no key is below no bound. -/
def refusesCursor (startKey : Key) (endKey : Option Key) (cursor : Key) : Prop :=
  cursor < startKey ∨ ¬ endKey.any fun u => decide (cursor < u)
deriving Decidable

namespace PebbleStore

variable {V : Type}

/-- A page of `Latest` over the entries from its start down. -/
def latestPage (q : LatestQuery) (dims : Nat) (entries : List (Key × V)) :
    Except QueryError (Records V × Option Key) := do
  let (results, lastKey, rest) ← latestLoop q dims q.pageSize.toNat [] none entries
  if results.length = q.pageSize.toNat then
    let more ← latestMore q dims rest
    .ok (results, if more then lastKey else none)
  else .ok (results, none)

/-- `Latest`, with the cursor of the next page. -/
def latest (s : PebbleStore V) (q : LatestQuery) : Except QueryError (Records V × Option Key) :=
  match s.registry q.timeline with
  | none => .error (.notDefined q.timeline)
  | some dims =>
    if q.dims.length < 1 ∨ dims < q.dims.length then .error (.queryDims q.dims.length dims)
    else if 10000 < q.pageSize then .error (.limit q.n)
    else if q.inverted then .error .latestBounds
    else
      let startKey := prefixStart q.timeline dims q.dims
      let endKey := prefixStop q.timeline dims q.dims
      let entries := (s.db.scan startKey endKey).reverse
      match q.cursor with
      | none => latestPage q dims entries
      | some cursor =>
        if refusesCursor startKey endKey cursor then .error .invalidCursor
        -- SeekLT
        else latestPage q dims (entries.filter fun entry => decide (entry.1 < cursor))

end PebbleStore

/-! ### What the pages are for -/

namespace LatestQuery

variable {V : Type}

/-- A stored event the query asks for. -/
def Selects (q : LatestQuery) (e : Event) : Prop :=
  e.timeline = q.timeline ∧ q.dims <+: e.dims ∧ (∀ lower ∈ q.fromTime, lower ≤ e.readTime) ∧
    ∀ upper ∈ q.toTime, e.readTime ≤ upper
deriving Decidable

/-- The pages from the first one on. -/
def Pages (q : LatestQuery) (s : PebbleStore V) (out : Records V) : Prop :=
  Paging.Follows (fun cursor => s.latest { q with cursor }) none out

/-- The pages come to an end, and are the matching records once each, in descending order of the
keys. -/
def Lossless (q : LatestQuery) (s : PebbleStore V) (recs : Records V) : Prop :=
  ∃ out, q.Pages s out ∧ out.Pairwise (fun r r' => r'.1.key < r.1.key) ∧
    ∀ r, r ∈ out ↔ ∃ r₀ ∈ recs, q.Selects r₀.1 ∧ r = (r₀.1.stored, r₀.2)

/-- What a prefix of greatest values needs: no event at the epoch in the zero series of the next
timeline, with at least two dimensions less, and no second page in the last timeline. -/
structure Safe (q : LatestQuery) (dims : Nat) (recs : Records V) : Prop where
  carry : (∀ d ∈ q.dims, d = maxDim) → ∀ r ∈ recs,
    ¬ (r.1.timeline.toNat = q.timeline.toNat + 1 ∧ r.1.dims.length + 1 < dims ∧
      (∀ d ∈ r.1.dims, d = 0) ∧ r.1.stamp = 0)
  cursor : (∀ d ∈ q.dims, d = maxDim) → q.timeline.toNat = 4294967295 →
    (recs.filter fun r => q.Selects r.1).length ≤ q.pageSize.toNat

end LatestQuery

/-! ### Between the bounds of a prefix -/

section Bounds

variable {e : Event} {dv : List UInt64} {dims : Nat} {tid : UInt32}

theorem key_stored (e : Event) : e.stored.key = e.key := by
  have hstamp : e.stored.stamp = e.stamp := by
    unfold stored stamp readTime unixNano
    rw [wrap_of_inRange (wrap_inRange e.time)]
  rw [key, key, hstamp]
  rfl

/-- **Between the bounds of a prefix** are the events of the timeline that have it. -/
theorem inPrefix_iff (hdims : e.dims.length = dims) (h : dv.length ≤ dims) :
    InBounds (prefixStart e.timeline dims dv) (prefixStop e.timeline dims dv) e.key ↔
      dv <+: e.dims := by
  subst hdims
  have hbelow : e.key < prefixStart e.timeline e.dims.length dv ↔ e.dims.take dv.length < dv := by
    have hlength := length_padDims h 0
    rw [← lt_padDims_iff h, ← dimBytes_lt_iff hlength.symm, prefixStart, key,
      encodePrefixKey, encodePrefixKey, append_assoc, append_lt_append_iff rfl]
    conv_lhs => rw [← append_nil (((padDims dv e.dims.length 0).flatMap fun d =>
      encode 8 d.toNat)), append_lt_append_iff (by rw [length_dimBytes, length_dimBytes, hlength])]
    simp
  have habove : ((prefixStop e.timeline e.dims.length dv).all fun u => decide (e.key < u)) ↔
      ¬ dv < e.dims.take dv.length := by
    have hlength := length_padDims h maxDim
    have hleads : (encodePrefixKey e.timeline (padDims dv e.dims.length maxDim)).length =
        (encodePrefixKey e.timeline e.dims).length := by
      rw [length_encodePrefixKey, length_encodePrefixKey, hlength]
    rw [prefixStop, all_increment_iff (by rw [hleads, key, length_append]; omega),
      hleads, key, take_left' rfl, encodePrefixKey, encodePrefixKey,
      append_lt_append_iff rfl, dimBytes_lt_iff hlength, padDims_lt_iff h]
    simp
  rw [InBounds, hbelow, habove, prefix_iff_eq_take]
  constructor
  · rintro ⟨hlow, hhigh⟩
    exact List.le_antisymm hlow hhigh
  · intro heq
    rw [← heq]
    exact ⟨List.lt_irrefl dv, List.lt_irrefl dv⟩

/-- An event of another timeline is between them only after a carry. -/
theorem inPrefix_other_iff (hne : e.timeline ≠ tid) (h : dv.length ≤ dims) :
    InBounds (prefixStart tid dims dv) (prefixStop tid dims dv) e.key ↔
      (∀ d ∈ dv, d = maxDim) ∧ e.timeline.toNat = tid.toNat + 1 ∧ e.dims.length + 1 < dims ∧
        (∀ d ∈ e.dims, d = 0) ∧ e.stamp = 0 := by
  have hlength : e.rest.length < ((padDims dv dims maxDim).flatMap fun d =>
      encode 8 d.toNat).length ↔ e.dims.length + 1 < dims := by
    rw [length_rest, length_dimBytes, length_padDims h]
    omega
  refine (inBounds_other_iff hne).trans ?_
  rw [forall_mem_dimBytes_iff (v := maxDim) (by decide), hlength, forall_mem_padDims_iff h]

/-- There is no upper bound for the greatest prefix of the last timeline. -/
theorem prefixStop_eq_none_iff (h : dv.length ≤ dims) :
    prefixStop tid dims dv = none ↔ tid.toNat = 4294967295 ∧ ∀ d ∈ dv, d = maxDim := by
  rw [prefixStop, increment_eq_none_iff, encodePrefixKey, forall_mem_append,
    forall_mem_dimBytes_iff (v := maxDim) (by decide), forall_mem_padDims_iff h,
    forall_mem_encode_iff (n := 4) (w := 4294967295) (by decide) tid.toNat_lt (by decide)]

end Bounds

/-! ### The loops -/

section Loop

variable {V : Type} {q : LatestQuery} {dims n : Nat} {recs : Records V}

/-- The records the loops do not skip. -/
def LatestQuery.kept (q : LatestQuery) (recs : Records V) : Records V :=
  recs.filter fun r => !q.skips r.1.readTime

theorem kept_cons_of_skips {r : Event × V} (h : q.skips r.1.readTime = true) :
    q.kept (r :: recs) = q.kept recs := filter_cons_of_neg (by simp [h])

theorem kept_cons_of_not_skips {r : Event × V} (h : ¬ q.skips r.1.readTime = true) :
    q.kept (r :: recs) = r :: q.kept recs := filter_cons_of_pos (by simp [h])

section

variable (hdims : ∀ r ∈ recs, r.1.dims.length = dims)

include hdims

/-- The loop keeps records while there is room, and leaves the other ones to be kept unread. -/
theorem latestLoop_eq (results : Records V) (lastKey : Option Key) {room : Nat}
    (hroom : results.length + room = n) : ∃ rest : Records V,
      latestLoop q dims n results lastKey (recs.map fun r => (r.1.key, r.2)) =
        .ok (results ++ ((q.kept recs).take room).map (fun r => (r.1.stored, r.2)),
          (((q.kept recs).take room).getLast?.map fun r => r.1.key).or lastKey,
          rest.map fun r => (r.1.key, r.2)) ∧
      q.kept rest = (q.kept recs).drop room ∧ ∀ r ∈ rest, r.1.dims.length = dims := by
  induction recs generalizing results lastKey room with
  | nil => exact ⟨[], by simp [latestLoop, LatestQuery.kept], by simp [LatestQuery.kept], by simp⟩
  | cons r recs ih =>
    have hcons := forall_mem_cons.mp hdims
    rw [map_cons, latestLoop]
    by_cases hfull : ¬ results.length < n
    · -- the page is full, and the entry is not read
      obtain rfl : room = 0 := by omega
      rw [if_pos hfull]
      exact ⟨r :: recs, by simp, by simp, hdims⟩
    rw [if_neg hfull, decodeEntry_key r.1 r.2 hcons.1]
    simp only
    by_cases hskip : q.skips r.1.stored.time = true
    · rw [if_pos hskip, kept_cons_of_skips hskip]
      exact ih hcons.2 results lastKey hroom
    · obtain ⟨room, rfl⟩ : ∃ room', room = room' + 1 := ⟨room - 1, by omega⟩
      rw [if_neg hskip, kept_cons_of_not_skips hskip, take_succ_cons, drop_succ_cons]
      have hroom' : (results ++ [(r.1.stored, r.2)]).length + room = n := by
        rw [length_append, length_singleton]
        omega
      obtain ⟨rest, hloop, hrest⟩ := ih hcons.2 _ (some r.1.key) hroom'
      refine ⟨rest, hloop.trans ?_, hrest⟩
      -- the last key is that of this record or of a later one
      rw [getLast?_cons, append_assoc, Option.map_some]
      rcases ((q.kept recs).take room).getLast? with - | r'
      · rfl
      · rfl

theorem latestMore_eq :
    latestMore q dims (recs.map fun r => (r.1.key, r.2)) = .ok (!(q.kept recs).isEmpty) := by
  induction recs with
  | nil => rfl
  | cons r recs ih =>
    have hcons := forall_mem_cons.mp hdims
    rw [map_cons, latestMore, decodeEntry_key r.1 r.2 hcons.1]
    simp only
    by_cases hskip : q.skips r.1.stored.time = true
    · rw [if_pos hskip, kept_cons_of_skips hskip, ih hcons.2]
    · rw [if_neg hskip, kept_cons_of_not_skips hskip]
      rfl

/-- **A page** over entries of the timeline. -/
theorem latestPage_eq : latestPage q dims (recs.map fun r => (r.1.key, r.2)) =
      .ok (page (fun r => r.1.key) q.pageSize.toNat
        ((q.kept recs).map fun r => (r.1.stored, r.2))) := by
  obtain ⟨rest, hloop, hkept, hrest⟩ := latestLoop_eq hdims [] none (Nat.zero_add q.pageSize.toNat)
  rw [latestPage, hloop]
  simp only [bind, Except.bind, nil_append, length_map, length_take, Option.or_none,
    latestMore_eq hrest, hkept, page, ← map_take, getLast?_map, Option.map_map]
  have hkeys : ((fun r : Event × V => r.1.key) ∘ fun r : Event × V => (r.1.stored, r.2)) =
      fun r => r.1.key := funext fun r => key_stored r.1
  rw [hkeys]
  by_cases hfull : min q.pageSize.toNat (q.kept recs).length = q.pageSize.toNat
  · rw [if_pos hfull]
    by_cases hmore : q.pageSize.toNat < (q.kept recs).length
    · have hempty : ((q.kept recs).drop q.pageSize.toNat).isEmpty = false := by
        rw [isEmpty_eq_false_iff, ne_eq, drop_eq_nil_iff]
        omega
      rw [if_pos hmore, hempty]
      rfl
    · have hempty : ((q.kept recs).drop q.pageSize.toNat).isEmpty = true := by
        rw [List.isEmpty_iff, drop_eq_nil_iff]
        omega
      rw [if_neg hmore, hempty]
      rfl
  · rw [if_neg hfull, if_neg (by omega)]

end

/-- A page whose first entry is of another timeline is an error. -/
theorem latestPage_of_length {e : Event} {v : V} {entries : List (Key × V)}
    (h : e.dims.length ≠ dims) (hn : 0 < q.pageSize.toNat) :
    ∃ err, latestPage q dims ((e.key, v) :: entries) = .error err := by
  have hroom : ¬ ¬ ([] : Records V).length < q.pageSize.toNat := not_not.mpr hn
  refine ⟨.keyLength e.key.length (keySize dims), ?_⟩
  rw [latestPage, latestLoop, if_neg hroom, decodeEntry, decodeKey_of_length h]
  rfl

end Loop

/-! ### Lossless pages -/

namespace PebbleStore

variable {V : Type} {s : PebbleStore V} {recs : Records V} {q : LatestQuery} {dims : Nat}

theorem one_le_pageSize (q : LatestQuery) : 0 < q.pageSize.toNat := by
  unfold LatestQuery.pageSize
  split <;> omega

theorem not_skips_iff (ts : Int) :
    q.skips ts = false ↔ (∀ lower ∈ q.fromTime, lower ≤ ts) ∧ ∀ upper ∈ q.toTime, ts ≤ upper := by
  rw [LatestQuery.skips, Bool.or_eq_false_iff]
  cases q.fromTime <;> cases q.toTime <;> simp

/-- The query is not refused. -/
structure Serves (s : PebbleStore V) (q : LatestQuery) (dims : Nat) : Prop where
  registry : s.registry q.timeline = some dims
  dims_pos : 1 ≤ q.dims.length
  dims_le : q.dims.length ≤ dims
  n_le : q.n ≤ 10000
  bounds : q.inverted = false

/-- The key is between the bounds of the prefix. -/
abbrev InPrefix (q : LatestQuery) (dims : Nat) (k : Key) : Prop :=
  InBounds (prefixStart q.timeline dims q.dims) (prefixStop q.timeline dims q.dims) k

/-- The event is at the epoch in the zero series of the next timeline. -/
abbrev Stray (q : LatestQuery) (dims : Nat) (e : Event) : Prop :=
  e.timeline.toNat = q.timeline.toNat + 1 ∧ e.dims.length + 1 < dims ∧ (∀ d ∈ e.dims, d = 0) ∧
    e.stamp = 0

theorem latest_eq (hs : Serves s q dims) (c : Option Key) :
    s.latest { q with cursor := c } =
      if ∃ k ∈ c, refusesCursor (prefixStart q.timeline dims q.dims)
        (prefixStop q.timeline dims q.dims) k then .error .invalidCursor
      else latestPage { q with cursor := c } dims ((s.db.scan (prefixStart q.timeline dims q.dims)
        (prefixStop q.timeline dims q.dims)).reverse.filter
          fun entry => c.all fun k => decide (entry.1 < k)) := by
  obtain ⟨hreg, hdims, hdims', hn, hbounds⟩ := hs
  have hdims : ¬ (q.dims.length < 1 ∨ dims < q.dims.length) := by omega
  have hn : ¬ 10000 < q.pageSize := by
    unfold LatestQuery.pageSize
    split <;> omega
  have hbounds : ¬ q.inverted = true := by rw [hbounds]; exact Bool.false_ne_true
  unfold latest
  simp only [hreg]
  rw [if_neg hdims]
  refine (if_neg hn).trans ((if_neg hbounds).trans ?_)
  rcases c with - | k
  · rw [if_neg (by simp)]
    simp only [Option.all_none, filter_true]
  · simp only [Option.mem_def, Option.some.injEq, exists_eq_left', Option.all_some]

/-- The records of the query from the last one down, as they are read. -/
def matching (q : LatestQuery) (recs : Records V) : Records V :=
  (recs.filter fun r => q.Selects r.1).reverse.map fun r => (r.1.stored, r.2)

theorem mem_matching (r : Event × V) :
    r ∈ matching q recs ↔ ∃ r₀ ∈ recs, q.Selects r₀.1 ∧ r = (r₀.1.stored, r₀.2) := by
  simp only [matching, mem_map, mem_reverse, mem_filter, decide_eq_true_iff,
    and_assoc, eq_comm (b := r)]

theorem Holds.pairwise_matching (h : Holds s recs) :
    (matching q recs).Pairwise fun r r' => r'.1.key < r.1.key := by
  rw [matching, pairwise_map, pairwise_reverse]
  refine (h.pairwise.filter _).imp fun hlt => ?_
  rwa [key_stored, key_stored]

section

variable (h : Holds s recs) (hs : Serves s q dims)
  (hcarry : (∀ d ∈ q.dims, d = maxDim) → ∀ r ∈ recs, ¬ Stray q dims r.1)

include h hs hcarry

/-- Without a stray event what is between the bounds is of the timeline. -/
theorem Holds.inPrefix_iff {r : Event × V} (hr : r ∈ recs) :
    InPrefix q dims r.1.key ↔ r.1.timeline = q.timeline ∧ q.dims <+: r.1.dims := by
  by_cases hid : r.1.timeline = q.timeline
  · have hlength : r.1.dims.length = dims := by
      refine Option.some.inj ?_
      rw [← h.registered r hr, hid, hs.registry]
    rw [and_iff_right hid, InPrefix, ← hid, Timeseries.inPrefix_iff hlength hs.dims_le]
  · rw [InPrefix, inPrefix_other_iff hid hs.dims_le]
    exact iff_of_false (fun hin => hcarry hin.1 r hr hin.2) fun hin => hid hin.1

/-- **A call** with a cursor that is not refused returns its page. -/
theorem Holds.latest_eq_page {c : Option Key}
    (hc : ¬ ∃ k ∈ c, refusesCursor (prefixStart q.timeline dims q.dims)
      (prefixStop q.timeline dims q.dims) k) :
    s.latest { q with cursor := c } = .ok (page (fun r => r.1.key) q.pageSize.toNat
      (below (fun r => r.1.key) c (matching q recs))) := by
  have hown : (recs.filter fun r => InPrefix q dims r.1.key) =
      recs.filter fun r => r.1.timeline = q.timeline ∧ q.dims <+: r.1.dims :=
    filter_congr fun r hr => decide_eq_decide.mpr (h.inPrefix_iff hs hcarry hr)
  rw [latest_eq hs, if_neg hc, h.scan_eq, hown, ← map_reverse, filter_map, latestPage_eq]
  · -- the filters of the bounds, the cursor and the times commute
    rw [LatestQuery.kept, matching, below, filter_map, ← filter_reverse,
      ← filter_reverse, filter_filter, filter_filter, filter_filter]
    refine congrArg (fun l => Except.ok (page _ q.pageSize.toNat (List.map _ l)))
      (filter_congr fun r _ => ?_)
    rw [Bool.eq_iff_iff]
    simp only [Function.comp, Bool.and_eq_true, Bool.not_eq_true', not_skips_iff,
      decide_eq_true_iff, key_stored]
    unfold LatestQuery.Selects
    tauto
  · intro r hr
    obtain ⟨hr, hid⟩ := mem_filter.mp (mem_reverse.mp (mem_of_mem_filter hr))
    rw [decide_eq_true_iff] at hid
    refine Option.some.inj ?_
    rw [← h.registered r hr, hid.1, hs.registry]

end

/-- A stray event is the first that is read, and cannot be decoded. -/
theorem Holds.latest_of_stray (h : Holds s recs) (hs : Serves s q dims)
    (hlast : ∀ d ∈ q.dims, d = maxDim) {r : Event × V} (hr : r ∈ recs)
    (hstray : Stray q dims r.1) : ∃ err, s.latest { q with cursor := none } = .error err := by
  have hne : r.1.timeline ≠ q.timeline := fun heq => by
    have hnext := hstray.1
    rw [heq] at hnext
    omega
  have hin : r ∈ recs.filter fun r => InPrefix q dims r.1.key := by
    rw [mem_filter, decide_eq_true_iff, InPrefix, inPrefix_other_iff hne hs.dims_le]
    exact ⟨hr, hlast, hstray⟩
  rw [latest_eq hs, if_neg (by simp), h.scan_eq]
  rw [← map_reverse]
  have hsorted := pairwise_reverse.mpr (h.pairwise.filter fun r => InPrefix q dims r.1.key)
  have hin := mem_reverse.mpr hin
  generalize hread : (recs.filter fun r => InPrefix q dims r.1.key).reverse = read at hin hsorted
  rcases read with - | ⟨first, read⟩
  · exact absurd hin not_mem_nil
  refine latestPage_of_length (fun hlength => ?_) (one_le_pageSize q)
  obtain ⟨hfirst, hfirstIn⟩ := mem_filter.mp (mem_reverse.mp (hread ▸ mem_cons_self))
  rw [decide_eq_true_iff] at hfirstIn
  -- the first event is not of the timeline, whose keys are below that of the stray event
  have hother : first.1.timeline ≠ q.timeline := by
    intro heq
    have hbelow : first.1.key < r.1.key := by
      rw [key_lt_key_of_ne (heq ▸ hne.symm), heq, UInt32.lt_iff_toNat_lt]
      omega
    rcases mem_cons.mp hin with rfl | hmem
    · exact hne heq
    · exact lt_asymm hbelow ((pairwise_cons.mp hsorted).1 r hmem)
  have hshort := ((inPrefix_other_iff hother hs.dims_le).mp hfirstIn).2.2.1
  omega

/-- **The pages are lossless** if and only if the query is safe.  The hypotheses are those a query
is refused without. -/
theorem latest_lossless_iff (h : Holds s recs) (hreg : s.registry q.timeline = some dims)
    (hdims : 1 ≤ q.dims.length) (hdims' : q.dims.length ≤ dims) (hn : q.n ≤ 10000)
    (hbounds : q.inverted = false) : q.Lossless s recs ↔ q.Safe dims recs := by
  have hs : Serves s q dims := ⟨hreg, hdims, hdims', hn, hbounds⟩
  have hlength : (matching q recs).length = (recs.filter fun r => q.Selects r.1).length := by
    rw [matching, length_map, length_reverse]
  constructor
  · rintro ⟨out, hpages, -⟩
    have hok : ∀ {out : Records V} {c : Option Key},
        Paging.Follows (fun cursor => s.latest { q with cursor }) c out →
          ∀ err, s.latest { q with cursor := c } ≠ .error err := by
      intro out c hfollows err herr
      cases hfollows with
      | last hcall | next hcall _ =>
        rw [herr] at hcall
        cases hcall
    refine ⟨fun hlast r hr hstray => ?_, fun hlast hid => ?_⟩
    · obtain ⟨err, herr⟩ := h.latest_of_stray hs hlast hr hstray
      exact hok hpages err herr
    · -- a second page would be refused
      rw [← hlength]
      by_contra hmore
      have hfirst := h.latest_eq_page (c := none) hs (fun _ r _ hstray => by
          have : r.1.timeline.toNat < 4294967296 := r.1.timeline.toNat_lt
          omega) (by simp)
      rw [below_none, page, if_pos (not_le.mp hmore)] at hfirst
      have hstop : prefixStop q.timeline dims q.dims = none :=
        (prefixStop_eq_none_iff hdims').mpr ⟨hid, hlast⟩
      have hrefused : ∀ k, s.latest { q with cursor := some k } = .error .invalidCursor := by
        intro k
        rw [latest_eq hs, if_pos ⟨k, rfl, .inr (by rw [hstop]; simp)⟩]
      cases hpages with
      | last hcall =>
        rw [hfirst, Except.ok.injEq, Prod.mk.injEq, Option.map_eq_none_iff,
          getLast?_eq_none_iff, take_eq_nil_iff] at hcall
        rcases hcall.2 with hzero | hnil
        · exact absurd hzero (one_le_pageSize q).ne'
        · rw [hnil] at hmore
          exact hmore (Nat.zero_le _)
      | next _ hrest => exact hok hrest _ (hrefused _)
  · intro hsafe
    refine ⟨matching q recs, ?_, h.pairwise_matching, mem_matching⟩
    have hpage := fun {c : Option Key} => h.latest_eq_page (c := c) hs hsafe.carry
    by_cases hstop : prefixStop q.timeline dims q.dims = none
    · -- all is on the first page
      obtain ⟨hid, hlast⟩ := (prefixStop_eq_none_iff hdims').mp hstop
      have hall := hsafe.cursor hlast hid
      rw [← hlength] at hall
      have hfirst := hpage (c := none) (by simp)
      rw [below_none, page, if_neg (not_lt.mpr hall), take_of_length_le hall] at hfirst
      exact .last hfirst
    · -- a cursor is the key of a record between the bounds
      have hfollows := follows_of_pages (c := none) (one_le_pageSize q)
        (h.pairwise_matching (q := q)) (fun c hc => hpage ?_) (by simp)
      · rwa [below_none] at hfollows
      rintro ⟨k, hk, hrefused⟩
      obtain ⟨r, hr, rfl⟩ := hc k hk
      obtain ⟨r₀, hr₀, hsel, rfl⟩ := (mem_matching r).mp hr
      obtain ⟨hlow, hhigh⟩ := (h.inPrefix_iff hs hsafe.carry hr₀).mpr ⟨hsel.1, hsel.2.1⟩
      rw [refusesCursor, key_stored] at hrefused
      obtain ⟨u, hu⟩ := Option.ne_none_iff_exists'.mp hstop
      rw [hu] at hrefused hhigh
      exact hrefused.elim hlow fun hnot => hnot hhigh

/-- The events up to a time, over two series, one a page. -/
theorem latest_sevens :
    LatestQuery.Lossless ⟨1, [7], 1, none, some 20, none⟩ sevens sevensRecords :=
  (latest_lossless_iff holds_sevens (show _ = some 2 from rfl) (by decide) (by decide) (by decide)
    (by decide)).mpr
    ⟨fun h => absurd (h 7 mem_cons_self) (by decide), fun _ h => absurd h (by decide)⟩

/-- An event of the last series of the last timeline. -/
def lastEvent (time : Int) : Event := ⟨4294967295, [maxDim], time⟩

/-- The series. -/
def lastSeries : PebbleStore Nat :=
  Runs.run step (init (fun id => if id = 4294967295 then some 1 else none) rfl)
    [.append (lastEvent 1) 10, .append (lastEvent 2) 20]

/-- Its second page is refused, with the cursor of the first one. -/
theorem latest_refuses_own_cursor : Holds lastSeries [(lastEvent 1, 10), (lastEvent 2, 20)] ∧
    ¬ LatestQuery.Lossless ⟨4294967295, [maxDim], 1, none, none, none⟩ lastSeries
      [(lastEvent 1, 10), (lastEvent 2, 20)] := by
  refine ⟨⟨by decide +kernel, by decide +kernel, by decide +kernel⟩, ?_⟩
  have hfirst : lastSeries.latest ⟨4294967295, [maxDim], 1, none, none, none⟩ =
      .ok ([(lastEvent 2, 20)], some (lastEvent 2).key) := by decide +kernel
  have hsecond : lastSeries.latest ⟨4294967295, [maxDim], 1, none, none,
      some (lastEvent 2).key⟩ = .error .invalidCursor := by decide +kernel
  rintro ⟨out, hpages, -⟩
  cases hpages with
  | last hcall =>
    rw [hfirst] at hcall
    cases hcall
  | next hcall hrest =>
    rw [hfirst] at hcall
    cases hcall
    cases hrest with
    | last hcall | next hcall _ =>
      cases hcall

end PebbleStore

end Xolu.Timeseries
