/-
# Matching calendars (pkg/cal/match.go, pkg/cal/codec.go)

`Match` looks for spans in which several calendars are free at once.  It builds a synthetic
occupancy day by day and lets `Openings` find the runs in it: the busy quanta of a day are the
complement of the common free quanta, and a day whose dayparts are all pruned by the rollup
is recorded as busy throughout.

One lemma for each operation on bitmaps says which quanta it has set, the slack bits included.
From them `test_combinedDay`: pruned or not, a quantum of the combined day is busy iff some
calendar has it busy.
-/
import Xolu.Cal.Openings

namespace Xolu.Cal

open List Num64 Stretch Occupancy DayBitmap

/-! ### Free masks and rollups -/

/-- `allFreeDay`, and `allBusyDay` as a busy map: all quanta, and no slack bit. -/
def allFreeDay : DayBitmap := ⟨(BitVec.allOnes 288).setWidth 320⟩

namespace DayBitmap

def freeMask (b : DayBitmap) : DayBitmap := ⟨~~~b.bits &&& allFreeDay.bits⟩

def isAllFree (b : DayBitmap) : Bool := decide (b.freeMask = allFreeDay)

end DayBitmap

def andFree (days : List DayBitmap) : DayBitmap :=
  days.foldl (fun r d => ⟨r.bits &&& d.freeMask.bits⟩) allFreeDay

def complementDay (free : DayBitmap) : DayBitmap := allFreeDay.without free

/-- `DaypartRollup`: for each of the eight dayparts, whether a quantum is occupied and whether
one is free. -/
structure DaypartRollup where
  or : BitVec 8
  anyClear : BitVec 8
deriving DecidableEq, Repr

/-- The quanta of a daypart. -/
def daypartQuanta (d : Nat) : List Int := cells (d * 36) (d * 36 + 36)

/-- A mask with the bits of the dayparts that satisfy a test. -/
def daypartMask (p : Nat → Bool) : BitVec 8 :=
  (List.range 8).foldl (fun r d => if p d then r ||| (1#8 <<< d) else r) 0

def rollupDay (b : DayBitmap) : DaypartRollup where
  or := daypartMask fun d => (daypartQuanta d).any fun q => b.test q
  anyClear := daypartMask fun d => (daypartQuanta d).any fun q => !b.test q

def matchCandidateDayparts (rollups : List DaypartRollup) : BitVec 8 :=
  rollups.foldl (fun cand r => cand &&& r.anyClear) 0xFF#8

/-! ### Match -/

/-- What `Match` records for a day with these busy maps; nothing for a day that is free. -/
def combinedDay (dayBusy : List DayBitmap) : Option DayBitmap :=
  if matchCandidateDayparts (dayBusy.map rollupDay) = 0 then some allFreeDay
  else
    let busy := complementDay (andFree dayBusy)
    if busy.isZero then none else some busy

structure MatchResult where
  matched : List Span
  checked : List String
  blocking : List String
deriving DecidableEq, Repr

/-- The variables of the loop of `Match`. -/
structure MatchScan where
  combined : Int → Option DayBitmap
  contributedBusy : List Bool

namespace IndexStore

def calBusyDay (x : IndexStore) (c : Calendar) (dayNanos : Int) : DayBitmap :=
  if c.matchPolicy ≠ .bindingProposed then x.dayValue ⟨c.ordinal, .binding, dayNanos⟩
  else x.dayValue ⟨c.ordinal, .binding, dayNanos⟩ ⊔ x.dayValue ⟨c.ordinal, .proposed, dayNanos⟩

/-- One round of the loop of `Match`. -/
def matchDay (x : IndexStore) (cals : List Calendar) (s : MatchScan) (dayNanos : Int) : MatchScan :=
  let dayBusy := cals.map fun c => x.calBusyDay c dayNanos
  { combined := match combinedDay dayBusy with
      | none => s.combined
      | some bm => Function.update s.combined dayNanos (some bm)
    contributedBusy := List.zipWith (fun c bm => c || !bm.isAllFree) s.contributedBusy dayBusy }

/-- `Match`. -/
def matchAll (x : IndexStore) (cals : List Calendar) (w : Span) (duration : Int) :
    Except ReadError MatchResult :=
  if cals = [] then .error .noCalendars
  else if ¬ w.Valid then .error .notBefore
  else if duration ≤ 0 then .error .duration
  else
    match w.days with
    | none => .error .endless
    | some days =>
      let s := days.foldl (x.matchDay cals) ⟨fun _ => none, cals.map fun _ => false⟩
      match (⟨s.combined, fun _ => none⟩ : Occupancy).openings w duration .earliest with
      | .error e => .error e
      | .ok ops =>
        let matched := ops.map Opening.span
        let blocking := (cals.zip s.contributedBusy).filterMap fun c =>
          if c.2 then some c.1.calendarID else none
        .ok ⟨matched, cals.map Calendar.calendarID,
          if matched = [] then blocking.mergeSort else []⟩

end IndexStore

/-! ### What the bitmaps have set -/

variable {b : DayBitmap} {q : Int}

theorem test_allFreeDay : allFreeDay.test q = decide (0 ≤ q ∧ q < 288) := by
  unfold test quantaPerDay allFreeDay
  split
  · rw [eq_comm, decide_eq_false_iff_not]
    omega
  · rw [BitVec.getLsbD_setWidth, BitVec.getLsbD_allOnes, ← Bool.decide_and]
    refine decide_eq_decide.mpr ?_
    omega

theorem test_freeMask : b.freeMask.test q = (decide (0 ≤ q ∧ q < 288) && !b.test q) := by
  rw [← test_allFreeDay]
  unfold test quantaPerDay freeMask
  split
  · rfl
  · rw [BitVec.getLsbD_and, BitVec.getLsbD_not, decide_eq_true (by omega), Bool.true_and,
      Bool.and_comm]

theorem test_and (a b : DayBitmap) :
    (⟨a.bits &&& b.bits⟩ : DayBitmap).test q = (a.test q && b.test q) := by
  unfold test
  split
  · rfl
  · rw [BitVec.getLsbD_and]

variable (days : List DayBitmap)

/-- The common free quanta. -/
theorem test_andFree :
    (andFree days).test q = (decide (0 ≤ q ∧ q < 288) && days.all fun b => !b.test q) := by
  have key : ∀ r : DayBitmap, (days.foldl (fun r d => ⟨r.bits &&& d.freeMask.bits⟩) r).test q =
      (r.test q && days.all fun b => b.freeMask.test q) := by
    induction days with
    | nil => simp
    | cons b days ih =>
      intro r
      rw [foldl_cons, ih, test_and, all_cons, Bool.and_assoc]
  rw [andFree, key, test_allFreeDay]
  by_cases hq : 0 ≤ q ∧ q < 288
  · simp only [hq, test_freeMask, and_self, decide_true, Bool.true_and]
  · simp only [hq, decide_false, Bool.false_and]

theorem test_complementDay (free : DayBitmap) :
    (complementDay free).test q = (decide (0 ≤ q ∧ q < 288) && !free.test q) := by
  rw [← test_allFreeDay]
  unfold complementDay without test quantaPerDay
  split
  · rfl
  · rw [BitVec.getLsbD_and, BitVec.getLsbD_not, decide_eq_true (by omega), Bool.true_and]

theorem getLsbD_daypartMask (p : Nat → Bool) {d : Nat} (hd : d < 8) :
    (daypartMask p).getLsbD d = p d := by
  have key : ∀ (l : List Nat) (r : BitVec 8),
      (l.foldl (fun r d => if p d then r ||| (1#8 <<< d) else r) r).getLsbD d =
        (r.getLsbD d || decide (d ∈ l) && p d) := by
    intro l
    induction l with
    | nil => simp
    | cons i l ih =>
      intro r
      rw [foldl_cons, ih]
      by_cases hi : i = d
      · subst hi
        cases p i <;> simp [hd]
      · have hbit : (1#8 <<< i).getLsbD d = false := by
          simp
          omega
        cases p i <;> simp [hbit, Ne.symm hi]
  rw [daypartMask, key]
  simp [hd]

/-- The dayparts in which every calendar has a free quantum. -/
theorem getLsbD_matchCandidateDayparts {d : Nat} (hd : d < 8) :
    (matchCandidateDayparts (days.map rollupDay)).getLsbD d =
      days.all fun b => (daypartQuanta d).any fun q => !b.test q := by
  have key : ∀ cand : BitVec 8,
      ((days.map rollupDay).foldl (fun cand r => cand &&& r.anyClear) cand).getLsbD d =
        (cand.getLsbD d && days.all fun b => (daypartQuanta d).any fun q => !b.test q) := by
    induction days with
    | nil => simp
    | cons b days ih =>
      intro cand
      rw [map_cons, foldl_cons, ih, BitVec.getLsbD_and, all_cons, Bool.and_assoc,
        rollupDay, getLsbD_daypartMask _ hd]
  rw [matchCandidateDayparts, key, show 0xFF#8 = BitVec.allOnes 8 from rfl,
    BitVec.getLsbD_allOnes, decide_eq_true hd, Bool.true_and]

/-- **Pruning is sound.**  In a day without a candidate every quantum is busy in some calendar. -/
theorem any_test_of_candidate_eq_zero {days : List DayBitmap}
    (h : matchCandidateDayparts (days.map rollupDay) = 0) (hq : 0 ≤ q ∧ q < 288) :
    days.any (fun b => b.test q) = true := by
  have hd : (q / 36).toNat < 8 := by omega
  have hbit := getLsbD_matchCandidateDayparts days hd
  rw [h, show (0 : BitVec 8) = 0#8 from rfl, BitVec.getLsbD_zero, eq_comm, all_eq_false] at hbit
  obtain ⟨b, hb, hbit⟩ := hbit
  rw [Bool.not_eq_true, any_eq_false] at hbit
  refine any_eq_true.mpr ⟨b, hb, ?_⟩
  have := hbit q (mem_cells.mpr (by omega))
  simpa using this

/-- **The combined day.**  Pruned or not, a quantum is busy iff some calendar has it busy. -/
theorem test_combinedDay : ((combinedDay days).getD ⊥).test q =
      (decide (0 ≤ q ∧ q < 288) && days.any fun b => b.test q) := by
  have hbusy : (complementDay (andFree days)).test q =
      (decide (0 ≤ q ∧ q < 288) && days.any fun b => b.test q) := by
    rw [test_complementDay, test_andFree, any_eq_not_all_not]
    cases decide (0 ≤ q ∧ q < 288) <;> simp
  unfold combinedDay
  split
  · rename_i hcand
    rw [Option.getD_some, test_allFreeDay]
    by_cases hq : 0 ≤ q ∧ q < 288
    · rw [any_test_of_candidate_eq_zero hcand hq, Bool.and_true]
    · simp only [hq, decide_false, Bool.false_and]
  · dsimp only
    split
    · rename_i hzero
      rw [← hbusy, of_decide_eq_true hzero]
      rfl
    · exact hbusy

/-! ### The loop over the days -/

/-- The planes that a calendar's policy selects. -/
def MatchConsiders.planes : MatchConsiders → List Plane
  | .bindingProposed => [.binding, .proposed]
  | _ => [.binding]

namespace IndexStore

variable {x : IndexStore} {cals : List Calendar} {w : Span} {duration : Int}

/-- The busy maps of the calendars on a day. -/
def dayBusy (x : IndexStore) (cals : List Calendar) (dayNanos : Int) : List DayBitmap :=
  cals.map fun c => x.calBusyDay c dayNanos

theorem combined_matchDay (s : MatchScan) (day d : Int) : (x.matchDay cals s day).combined d =
      if d = day then (combinedDay (x.dayBusy cals d)).or (s.combined d) else s.combined d := by
  show (match combinedDay (x.dayBusy cals day) with
    | none => s.combined
    | some bm => Function.update s.combined day (some bm)) d = _
  by_cases hd : d = day
  · subst hd
    rw [if_pos rfl]
    rcases combinedDay (x.dayBusy cals d) with - | bm
    · rfl
    · exact Function.update_self ..
  · rw [if_neg hd]
    rcases combinedDay (x.dayBusy cals day) with - | bm
    · rfl
    · exact Function.update_of_ne hd ..

/-- The combined map has what was found for the days of the loop. -/
theorem combined_foldl (days : List Int) (s : MatchScan) (d : Int) :
    (days.foldl (x.matchDay cals) s).combined d =
      if d ∈ days then (combinedDay (x.dayBusy cals d)).or (s.combined d) else s.combined d := by
  induction days generalizing s with
  | nil => simp
  | cons day days ih =>
    rw [foldl_cons, ih, combined_matchDay]
    by_cases hd : d = day
    · subst hd
      rw [if_pos rfl, if_pos mem_cons_self]
      split
      · cases combinedDay (x.dayBusy cals d) <;> rfl
      · rfl
    · simp only [hd, if_false, mem_cons, false_or]

/-- The synthetic calendar of a list of days. -/
def combined (x : IndexStore) (cals : List Calendar) (days : List Int) : Occupancy :=
  ⟨(days.foldl (x.matchDay cals) ⟨fun _ => none, cals.map fun _ => false⟩).combined, fun _ => none⟩

variable {days : List Int} {d : Int}

theorem test_combined (hd : d ∈ days) (q : Int) : ((x.combined cals days).dayOn .binding d).test q =
      (decide (0 ≤ q ∧ q < 288) && (x.dayBusy cals d).any fun b => b.test q) := by
  rw [← test_combinedDay]
  refine congrArg (fun bm : Option DayBitmap => (bm.getD ⊥).test q) ?_
  rw [show (x.combined cals days).planeMap .binding d =
    (days.foldl (x.matchDay cals) ⟨fun _ => none, cals.map fun _ => false⟩).combined d from rfl,
    combined_foldl, if_pos hd, Option.or_none]

/-- The quantum is free on every calendar, on the planes its policy selects. -/
def FreeOnAll (x : IndexStore) (cals : List Calendar) (g : Int) : Prop :=
  ∀ c ∈ cals, ∀ plane ∈ c.matchPolicy.planes,
    (x.dayValue ⟨c.ordinal, plane, g / 288 * nsPerDay⟩).test (g % 288) = false

theorem test_calBusyDay {c : Calendar} {q : Int} : (x.calBusyDay c d).test q = false ↔
      ∀ plane ∈ c.matchPolicy.planes, (x.dayValue ⟨c.ordinal, plane, d⟩).test q = false := by
  unfold calBusyDay
  split
  · rename_i hpol
    have hplanes : c.matchPolicy.planes = [.binding] := by
      cases h : c.matchPolicy <;> first | rfl | exact absurd h hpol
    simp [hplanes]
  · rename_i hpol
    rw [not_not.mp hpol]
    simp [MatchConsiders.planes]

/-- A quantum of the days of the loop is free in the synthetic calendar iff it is free on all
calendars. -/
theorem free_combined_iff {g : Int} (hg : g / 288 * nsPerDay ∈ days) :
    (x.combined cals days).Free g ↔ x.FreeOnAll cals g := by
  have hq : 0 ≤ g % 288 ∧ g % 288 < 288 := by omega
  have hprop : ((x.combined cals days).dayOn .proposed (g / 288 * nsPerDay)).test (g % 288) =
    false := test_bot
  unfold Occupancy.Free
  rw [test_combined hg, decide_eq_true hq, Bool.true_and, any_eq_false]
  simp only [hprop, and_true, dayBusy, forall_mem_map, Bool.not_eq_true, test_calBusyDay]
  rfl

/-- The spans are exactly the maximal runs of common free quanta of the window, clipped to it,
that are long enough, in chronological order. -/
structure ExactMatches (x : IndexStore) (cals : List Calendar) (w : Span) (duration : Int)
    (matched : List Span) : Prop where
  mem_iff : ∀ s, s ∈ matched ↔
    ∃ a b, IsMaximal (x.FreeOnAll cals) (w.start / nsPerQuantum) (quantumAfter w.stop) a b ∧
      s = ⟨max (a * nsPerQuantum) w.start, min (b * nsPerQuantum) w.stop⟩ ∧
      duration ≤ s.stop - s.start
  pairwise : matched.Pairwise fun s s' => s.stop < s'.start

/-- The spans of `Match` are the openings of the synthetic calendar. -/
theorem matchAll_of {ops : List Opening} (hc : cals ≠ []) (hv : w.Valid)
    (hd : 0 < duration) (hdays : w.days = some days)
    (hops : (x.combined cals days).openings w duration .earliest = .ok ops) :
    ∃ r, x.matchAll cals w duration = .ok r ∧ r.matched = ops.map Opening.span := by
  unfold combined at hops
  unfold matchAll
  rw [if_neg hc, if_neg (not_not.mpr hv), if_neg (not_le.mpr hd), hdays]
  dsimp only
  rw [hops]
  exact ⟨_, rfl, rfl⟩

theorem matchAll_ok {r : MatchResult} (h : x.matchAll cals w duration = .ok r) :
    ∃ days ops, w.days = some days ∧
      (x.combined cals days).openings w duration .earliest = .ok ops ∧
      r.matched = ops.map Opening.span := by
  unfold matchAll at h
  split_ifs at h
  split at h
  · cases h
  · rename_i days hdays
    dsimp only at h
    split at h
    · cases h
    · rename_i ops hops
      cases h
      exact ⟨days, ops, hdays, hops, rfl⟩

/-- Up to the last midnight `Match` returns what it should. -/
theorem matchAll_exact (hw : w.Readable) (hc : cals ≠ []) (hd : 0 < duration) :
    ∃ r, x.matchAll cals w duration = .ok r ∧ x.ExactMatches cals w duration r.matched := by
  have hdays := hw.daily.days_eq
  generalize hds : (cells (w.start / nsPerDay) (dayAfter w.stop)).map (· * nsPerDay) = days at hdays
  have hops := openings_earliest (o := x.combined cals days) hw hd
  obtain ⟨r, hr, hmatched⟩ := matchAll_of hc hw.valid hd hdays hops
  refine ⟨r, hr, ?_⟩
  rw [hmatched]
  -- the quanta of the window lie on the days of the loop
  have hfree : ∀ g, w.start / nsPerQuantum ≤ g → g < quantumAfter w.stop →
      ((x.combined cals days).Free g ↔ x.FreeOnAll cals g) := by
    intro g h1 h2
    refine free_combined_iff ?_
    rw [← hds]
    refine mem_map.mpr ⟨g / 288, mem_cells.mpr ?_, rfl⟩
    unfold quantumAfter at h2
    unfold dayAfter nsPerDay
    unfold nsPerQuantum at h1 h2
    omega
  refine ⟨fun s => ?_, pairwise_map.mpr (pairwise_fits hw duration)⟩
  simp only [mem_map, mem_fits hw, Occupancy.FreeStretch, isMaximal_congr hfree]
  constructor
  · rintro ⟨_, ⟨a, b, hm, rfl, hle⟩, rfl⟩
    exact ⟨a, b, hm, rfl, hle⟩
  · rintro ⟨a, b, hm, rfl, hle⟩
    exact ⟨clipped w (a, b), ⟨a, b, hm, rfl, hle⟩, rfl⟩

/-- A window that is free from end to end is one run. -/
theorem whole_window (hvalid : w.Valid) (hd : duration ≤ w.stop - w.start)
    (hfree : ∀ g, w.start / nsPerQuantum ≤ g → g < quantumAfter w.stop → x.FreeOnAll cals g) :
    ∃ a b, IsMaximal (x.FreeOnAll cals) (w.start / nsPerQuantum) (quantumAfter w.stop) a b ∧
      w = ⟨max (a * nsPerQuantum) w.start, min (b * nsPerQuantum) w.stop⟩ ∧
      duration ≤ w.stop - w.start := by
  have hlt : w.start < w.stop := hvalid
  have hQ : w.start / nsPerQuantum * nsPerQuantum ≤ w.start ∧
      w.stop ≤ quantumAfter w.stop * nsPerQuantum ∧
      w.start / nsPerQuantum < quantumAfter w.stop := by
    unfold quantumAfter nsPerQuantum
    omega
  refine ⟨_, _, ⟨le_rfl, hQ.2.2, le_rfl, hfree, .inl rfl, .inl rfl⟩, ?_, hd⟩
  rw [max_eq_right hQ.1, min_eq_right hQ.2.1]

/-! ### After the last midnight -/

/-- A calendar. -/
def room : Calendar := ⟨"room", 1, .binding, .binding⟩

/-- An index in which everything is taken that a loop over the days finds only after it has
wrapped around. -/
def detourIndex : IndexStore where
  ordinals _ := none
  days k := if k.plane = .binding then detour.binding k.dayNanos else none

theorem detours_combined (hd : d ∈ days) : (detourIndex.combined [room] days).Detours d where
  binding := by
    intro q
    have hday : detourIndex.calBusyDay room d = detour.dayOn .binding d := rfl
    rw [test_combined hd, dayBusy, map_singleton, hday, any_cons, any_nil,
      Bool.or_false, (detours_detour d).binding, ← Bool.decide_and]
    refine decide_eq_decide.mpr ?_
    tauto
  proposed := fun _ => test_bot

/-- **Match.**  For a window at or after the epoch, `Match` returns exactly the maximal runs of
common free quanta that are long enough, whatever the calendars, the index and the duration,
iff the window ends at the last midnight of int64 nanoseconds or before. -/
theorem match_exact_iff (w : Span) (hstart : 0 ≤ w.start) (hvalid : w.Valid) :
    (∀ (x : IndexStore) (cals : List Calendar) (duration : Int), cals ≠ [] → 0 < duration →
      ∃ r, x.matchAll cals w duration = .ok r ∧ x.ExactMatches cals w duration r.matched) ↔
    w.stop ≤ lastMidnight := by
  constructor
  · intro h
    by_contra hlate
    have hlt : w.start < w.stop := hvalid
    obtain ⟨r, hr, hexact⟩ := h detourIndex [room] 1 (fun h => nomatch h) Int.one_pos
    obtain ⟨days, ops, hdays, hops, hmatched⟩ := matchAll_ok hr
    -- the window is free from end to end, and no span reaches its end
    have hfree : ∀ g, 0 ≤ g → detourIndex.FreeOnAll [room] g := by
      intro g hg c hc plane hplane
      obtain rfl := mem_singleton.mp hc
      obtain rfl := mem_singleton.mp hplane
      exact ((detours_detour _).free hg).1
    have hmem : w ∈ r.matched :=
      (hexact.mem_iff w).mpr (whole_window hvalid (by omega) fun g h1 _ => hfree g (by
        unfold nsPerQuantum at h1
        omega))
    rw [hmatched] at hmem
    obtain ⟨r', hr', hspan⟩ := mem_map.mp hmem
    have hstop := stop_lt_of_mem_openings
      (fun ds hds d hd => detours_combined (Option.some.inj (hdays.symm.trans hds) ▸ hd)) hstart hlt
      (not_le.mp hlate) hops r' hr'
    rw [← hspan] at hstop
    exact absurd hstop (lt_irrefl _)
  · intro hstop x cals duration hc hd
    exact matchAll_exact ⟨hstart, hvalid, hstop⟩ hc hd

/-- An hour in a day and a half from 00:01 on, where nine to ten is taken. -/
theorem match_exact_dayAndHalf :
    let x : IndexStore :=
      ⟨fun _ => some 1, fun k => if k.plane = .binding then nineToTen.binding k.dayNanos
        else none⟩
    ∃ r, x.matchAll [room] ⟨60000000000, 129600000000000⟩ 3600000000000 = .ok r ∧
      x.ExactMatches [room] ⟨60000000000, 129600000000000⟩ 3600000000000 r.matched :=
  (match_exact_iff ⟨60000000000, 129600000000000⟩ (by decide) (by decide)).mpr (by decide)
    _ [room] 3600000000000 (cons_ne_nil _ _) (by decide)

/-- A calendar without a booking is free until 2300; the end of the window wraps to a time before
its start, and no span is returned. -/
theorem far_window_no_match : let x : IndexStore := ⟨fun _ => some 1, fun _ => none⟩
    x.matchAll [room] farWindow 3600000000000 = .ok ⟨[], ["room"], []⟩ ∧
      ¬ x.ExactMatches [room] farWindow 3600000000000 [] := by
  refine ⟨by decide +kernel, fun h => ?_⟩
  have hmem := (h.mem_iff farWindow).mpr
    (whole_window (by decide) (by decide) fun g _ _ c _ plane _ => test_bot)
  cases hmem

end IndexStore

end Xolu.Cal
