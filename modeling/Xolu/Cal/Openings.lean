/-
# Openings and availability (pkg/cal/availability.go)

`Openings` and `IsFree` walk the quanta of a window separately.  `Agree` says that they
describe the same free time: what lies within an opening is reported free, and free time that
is long enough lies within an opening.

They agree for every window that ends at the last midnight of int64 nanoseconds or before.  For
any later end there is an occupancy that makes them differ: the loop over days wraps around and
goes on at other times of day, so that the days there decide how a run of the window ends.
-/
import Xolu.Cal.Availability

namespace Xolu.Cal

open List Num64 Stretch DayBitmap

namespace Occupancy

variable {o : Occupancy} {w : Span} {duration : Int}

/-- The openings of a window and the availability reads agree. -/
structure Agree (o : Occupancy) (w : Span) (duration : Int) (ops : List Opening) : Prop where
  /-- Every span within an opening is reported free. -/
  sound : ∀ r ∈ ops, ∀ s : Span, s.Valid → r.start ≤ s.start → s.stop ≤ r.stop →
    o.isFree s = .ok true
  /-- Every long enough span of the window with free quanta lies within an opening. -/
  complete : ∀ s : Span, w.start ≤ s.start → s.stop ≤ w.stop → duration ≤ s.stop - s.start →
    (∀ g ∈ cells (s.start / nsPerQuantum) (quantumAfter s.stop), o.Free g) →
    ∃ r ∈ ops, r.start ≤ s.start ∧ s.stop ≤ r.stop

variable {ops : List Opening}

theorem agree_fits (hw : w.Readable) (hd : 0 < duration)
    (hops : ∀ r, r ∈ ops ↔ r ∈ o.fits w duration) : o.Agree w duration ops where
  sound := by
    intro r hr s hs hrs hsr
    obtain ⟨a, b, hm, rfl, -⟩ := (mem_fits hw).mp ((hops r).mp hr)
    unfold clipped at hrs hsr
    dsimp only at hrs hsr
    have h0 := hw.nonneg
    have h1 := hw.reach
    have hread : s.Readable := ⟨by omega, hs, by omega⟩
    rw [isFree_eq hread]
    refine congrArg Except.ok (decide_eq_true fun g hg => ?_)
    obtain ⟨hg1, hg2⟩ := mem_cells.mp hg
    unfold quantumAfter at hg2
    unfold nsPerQuantum at *
    exact hm.all g (by omega) (by omega)
  complete := by
    intro s hws hsw hlen hfree
    have hquanta : w.start / nsPerQuantum ≤ s.start / nsPerQuantum ∧
        s.start / nsPerQuantum < quantumAfter s.stop ∧
        quantumAfter s.stop ≤ quantumAfter w.stop := by
      unfold quantumAfter nsPerQuantum
      omega
    obtain ⟨a, b, hm, ha, hb⟩ := exists_isMaximal (P := o.Free) hquanta.1 hquanta.2.1 hquanta.2.2
      fun g h1 h2 => hfree g (mem_cells.mpr ⟨h1, h2⟩)
    have hcover : (clipped w (a, b)).start ≤ s.start ∧ s.stop ≤ (clipped w (a, b)).stop := by
      unfold quantumAfter at hb
      unfold clipped
      unfold nsPerQuantum at *
      dsimp only
      omega
    refine ⟨clipped w (a, b), (hops _).mpr ((mem_fits hw).mpr ⟨a, b, hm, rfl, ?_⟩), hcover⟩
    omega

/-! ### After the last midnight -/

/-- The day begins at a midnight since the epoch. -/
def Midnight (d : Int) : Prop := 0 ≤ d ∧ d % nsPerDay = 0
deriving Decidable

/-- Of this day everything is taken, unless it begins at midnight: then nothing is. -/
structure Detours (o : Occupancy) (d : Int) : Prop where
  binding : ∀ q, (o.dayOn .binding d).test q = decide (¬ Midnight d ∧ 0 ≤ q ∧ q < 288)
  proposed : ∀ q, (o.dayOn .proposed d).test q = false

/-- Everything is taken that a loop over the days finds only after it has wrapped around. -/
def detour : Occupancy where
  binding d := if Midnight d then none else some ((⊥ : DayBitmap).setRange 0 288)
  proposed _ := none

theorem detours_detour (d : Int) : detour.Detours d where
  binding := by
    intro q
    show ((if Midnight d then none else some ((⊥ : DayBitmap).setRange 0 288)).getD ⊥).test q = _
    by_cases h : Midnight d
    · simp [h]
    · simp only [h, if_false, Option.getD_some, test_setRange, test_bot,
        Bool.false_or, not_false_eq_true, true_and]
      refine decide_eq_decide.mpr ?_
      unfold quantaPerDay
      omega
  proposed := fun _ => test_bot

/-- The quanta since the epoch are free. -/
theorem Detours.free {g : Int} (h : 0 ≤ g) (hd : o.Detours (g / 288 * nsPerDay)) : o.Free g := by
  have hday : Midnight (g / 288 * nsPerDay) := by
    unfold Midnight nsPerDay
    omega
  refine ⟨?_, hd.proposed _⟩
  rw [hd.binding]
  exact decide_eq_false fun hm => hm.1 hday

theorem flush_runStartNanos (s : RunScan) (t : Int) : (s.flush t).runStartNanos < 0 := by
  unfold RunScan.flush
  split
  · show (-1 : Int) < 0
    decide
  · omega

theorem flush_flush (s : RunScan) (t u : Int) : (s.flush t).flush u = s.flush t :=
  if_neg (not_le.mpr (flush_runStartNanos s t))

/-- Free quanta add no run. -/
theorem runs_foldl_free {d : Int} {l : List Int} (s : RunScan)
    (h : ∀ q ∈ l, (o.dayOn .binding d).test q = false ∧ (o.dayOn .proposed d).test q = false) :
    (l.foldl (fun s q => o.scanQuantum s d q) s).runs = s.runs := by
  refine foldlRecOn (motive := fun s' : RunScan => s'.runs = s.runs) l _ rfl fun s' hs q hq => ?_
  rw [scanQuantum, if_pos (h q hq)]
  split <;> exact hs

/-- Quanta that are taken end the run at the first of them. -/
theorem foldl_taken {d lo hi : Int} (hlt : lo < hi) (s : RunScan)
    (h : ∀ q ∈ cells lo hi, (o.dayOn .binding d).test q = true) :
    (cells lo hi).foldl (fun s q => o.scanQuantum s d q) s =
      s.flush (wrap (d + lo * nsPerQuantum)) := by
  have htaken : ∀ q ∈ cells lo hi, ∀ s, o.scanQuantum s d q =
      s.flush (wrap (d + q * nsPerQuantum)) := by
    intro q hq s
    rw [scanQuantum]
    simp [h q hq]
  rw [cells_cons hlt] at htaken ⊢
  rw [foldl_cons, (forall_mem_cons.mp htaken).1]
  -- there is nothing to flush afterwards
  generalize hl : cells (lo + 1) hi = l at *
  clear hl
  induction l with
  | nil => rfl
  | cons q l ih =>
    rw [forall_mem_cons, forall_mem_cons] at htaken
    rw [foldl_cons, htaken.2.1, flush_flush]
    exact ih (forall_mem_cons.mpr ⟨htaken.1, htaken.2.2⟩)

section late

variable {startN endN d : Int} (hstart : 0 ≤ startN) (hlt : startN < endN)
  (hend : lastMidnight < endN ∧ endN ≤ 9223372036854775807) (hd : d < endN ∧ InRange d)

/-- All runs so far end before this instant, at int64 nanoseconds. -/
def Early (endN : Int) (s : RunScan) : Prop := ∀ r ∈ s.runs, r.stop < endN ∧ InRange r.stop

theorem Early.flush {s : RunScan} (h : Early endN s) {t : Int} (ht : wrap t < endN) :
    Early endN (s.flush (wrap t)) := by
  unfold RunScan.flush
  split
  · intro r hr
    rcases mem_append.mp hr with hr | hr
    · exact h r hr
    · rw [mem_singleton.mp hr]
      exact ⟨ht, wrap_inRange t⟩
  · exact h

include hlt hend hd in
/-- The first quantum of a segment within its day begins before the window ends. -/
theorem first_lt (h : 0 < (segment startN endN d).loQ) :
    wrap (d + (segment startN endN d).loQ * nsPerQuantum) < endN := by
  obtain ⟨hd1, hd2⟩ := hd
  unfold InRange at hd2
  unfold segment at h ⊢
  dsimp only at h ⊢
  have hle : (if startN < d then d else startN) < endN ∧
      d ≤ (if startN < d then d else startN) := by
    split <;> omega
  generalize (if startN < d then d else startN) = loN at *
  have hpos : 0 ≤ wrap (loN - d) := by
    by_contra hneg
    rw [← Int.neg_neg (wrap (loN - d)), Int.neg_tdiv] at h
    have := Int.tdiv_nonneg (by omega : 0 ≤ -wrap (loN - d)) (by decide : 0 ≤ nsPerQuantum)
    omega
  have hw : wrap (loN - d) = loN - d := by
    unfold wrap at hpos ⊢
    omega
  rw [Int.tdiv_eq_ediv_of_nonneg hpos, hw] at h ⊢
  unfold nsPerQuantum at *
  rw [wrap_of_inRange]
  · omega
  · unfold InRange
    omega

theorem hiQ_le : (segment startN endN d).hiQ ≤ 288 := by
  unfold segment quantaPerDay
  dsimp only
  split <;> omega

/-- The loop over the quanta of one segment. -/
def scanSegment (o : Occupancy) (s : RunScan) (seg : Segment) : RunScan :=
  (cells seg.loQ seg.hiQ).foldl (fun s q => o.scanQuantum s seg.dayNanos q) s

/-- On a day that is taken, quanta of the day end the run at the first of them. -/
theorem Detours.foldl_eq (ho : o.Detours d) (hmid : ¬ Midnight d) {lo hi : Int} (hlo : 0 ≤ lo)
    (hlt : lo < hi) (hhi : hi ≤ 288) (s : RunScan) :
    (cells lo hi).foldl (fun s q => o.scanQuantum s d q) s =
      s.flush (wrap (d + lo * nsPerQuantum)) := by
  refine foldl_taken hlt s fun q hq => ?_
  obtain ⟨h1, h2⟩ := mem_cells.mp hq
  rw [ho.binding]
  exact decide_eq_true ⟨hmid, by omega, by omega⟩

include hlt hend hd in
/-- A segment ends its runs before the window does. -/
theorem early_scanSegment (ho : o.Detours d) {s : RunScan} (h : Early endN s) :
    Early endN (o.scanSegment s (segment startN endN d)) := by
  unfold scanSegment
  have hhi : (segment startN endN d).hiQ ≤ 288 := hiQ_le
  have hfirst := first_lt hlt hend hd
  rw [show (segment startN endN d).dayNanos = d from rfl]
  generalize (segment startN endN d).loQ = lo at *
  generalize (segment startN endN d).hiQ = hi at *
  -- free quanta add no run
  have hfree : ∀ {m : Int}, Midnight d ∨ m ≤ 0 →
      Early endN ((cells lo m).foldl (fun s q => o.scanQuantum s d q) s) := by
    intro m hm
    unfold Early
    rw [runs_foldl_free]
    · exact h
    · intro q hq
      obtain ⟨-, hq⟩ := mem_cells.mp hq
      rw [ho.binding]
      refine ⟨decide_eq_false fun hbusy => ?_, ho.proposed q⟩
      rcases hm with hm | hm
      · exact hbusy.1 hm
      · omega
  by_cases hmid : Midnight d
  · exact hfree (.inl hmid)
  · -- the quanta before the day are free, and those of the day are taken
    have hzero : wrap (d + 0 * nsPerQuantum) < endN := by
      rw [Int.zero_mul, Int.add_zero, wrap_of_inRange hd.2]
      exact hd.1
    rcases le_or_gt hi 0 with hhi0 | hhi0
    · exact hfree (.inr hhi0)
    rcases lt_or_ge lo 0 with hlo | hlo
    · rw [← cells_append hlo.le hhi0.le, foldl_append, ho.foldl_eq hmid le_rfl hhi0 hhi]
      exact (hfree (.inr le_rfl)).flush hzero
    rcases lt_or_ge lo hi with hlh | hlh
    · rw [ho.foldl_eq hmid hlo hlh hhi]
      refine h.flush ?_
      rcases eq_or_lt_of_le hlo with rfl | hlo
      · exact hzero
      · exact hfirst hlo
    · rw [cells_of_le hlh]
      exact h

include hstart hlt hend in
/-- After the last segment no run is open: it lies on a day that does not begin at midnight, and
reaches to the end of the window. -/
theorem runStartNanos_scanSegment {e : Int} (ho : o.Detours e) (he : e < endN ∧ InRange e)
    (hlast : endN ≤ wrap (e + nsPerDay)) (s : RunScan) :
    (o.scanSegment s (segment startN endN e)).runStartNanos < 0 := by
  obtain ⟨he1, he2⟩ := he
  obtain ⟨hend1, hend2⟩ := hend
  unfold lastMidnight at hend1
  unfold InRange at he2
  have hwrap : wrap (e + nsPerDay) = e + nsPerDay := by
    unfold wrap at hlast ⊢
    unfold nsPerDay at *
    omega
  have hr := wrap_inRange (e + nsPerDay)
  unfold InRange at hr
  have hmid : ¬ Midnight e := by
    unfold Midnight nsPerDay at *
    omega
  have hseg : 0 ≤ (segment startN endN e).loQ ∧
      (segment startN endN e).loQ < (segment startN endN e).hiQ := by
    unfold segment
    simp only [hwrap, quantaPerDay]
    unfold nsPerDay nsPerQuantum at *
    rw [wrap_of_inRange (by unfold InRange; split <;> omega),
      wrap_of_inRange (by unfold InRange; split <;> omega),
      Int.tdiv_eq_ediv_of_nonneg (by split <;> omega),
      Int.tdiv_eq_ediv_of_nonneg (by split <;> omega)]
    constructor
    · split <;> omega
    · split <;> split <;> split <;> omega
  rw [scanSegment, show (segment startN endN e).dayNanos = e from rfl,
    ho.foldl_eq hmid hseg.1 hseg.2 hiQ_le]
  exact flush_runStartNanos s _

include hstart hlt hend in
/-- So the loop leaves no open run, and all its runs end before the window does. -/
theorem foldQuanta_detours {n : Nat} {day : Int} {days : List Int}
    (hday : day < endN ∧ InRange day) (h : daysUntil endN n day = some days)
    (ho : ∀ d ∈ days, o.Detours d) :
    let s := foldQuanta o.scanQuantum ⟨-1, []⟩ (days.map (segment startN endN))
    s.runStartNanos < 0 ∧ Early endN s := by
  obtain ⟨hall, hex⟩ := daysUntil_spec h hday.2
  obtain ⟨init, e, rfl, hlast⟩ := hex hday.1
  have hfold : foldQuanta o.scanQuantum ⟨-1, []⟩ ((init ++ [e]).map (segment startN endN)) =
      o.scanSegment ((init.map (segment startN endN)).foldl o.scanSegment ⟨-1, []⟩)
        (segment startN endN e) := by
    rw [map_append, foldQuanta, foldl_append]
    rfl
  have hinit : Early endN ((init.map (segment startN endN)).foldl o.scanSegment ⟨-1, []⟩) := by
    refine foldlRecOn _ _ (fun r hr => absurd hr not_mem_nil) fun s hs seg hseg => ?_
    obtain ⟨d, hd, rfl⟩ := mem_map.mp hseg
    have hd' := mem_append_left [e] hd
    exact early_scanSegment hlt hend (hall d hd') (ho d hd') hs
  have hmem : e ∈ init ++ [e] := mem_append_right _ (mem_singleton.mpr rfl)
  rw [hfold]
  exact ⟨runStartNanos_scanSegment hstart hlt hend (ho e hmem) (hall e hmem) hlast _,
    early_scanSegment hlt hend (hall e hmem) (ho e hmem) hinit⟩

end late

/-- Runs end at int64 nanoseconds. -/
theorem early_foldQuanta (o : Occupancy) (segs : List Segment) :
    Early 9223372036854775808 (foldQuanta o.scanQuantum ⟨-1, []⟩ segs) := by
  refine foldlRecOn _ _ (fun r hr => absurd hr not_mem_nil) fun s hs seg _ => ?_
  refine foldlRecOn _ _ hs fun s hs q _ => ?_
  unfold scanQuantum
  split
  · split
    · exact hs
    · exact hs
  · refine hs.flush ?_
    have := (wrap_inRange (seg.dayNanos + q * nsPerQuantum)).2
    omega

/-- A run that ends before the window is not clipped there. -/
theorem stop_clip {fromN toN : Int} {r : Opening} (hr : r.stop ≤ toN) (hrange : InRange r.stop) :
    (r.clip fromN toN).stop = r.stop := by
  unfold Opening.clip unixNano
  rw [wrap_of_inRange hrange]
  exact if_neg (not_lt.mpr hr)

variable {runs : List Opening}

/-- The runs of a loop that ends, before they are clipped. -/
theorem freeRuns_ok (hlt : w.start < w.stop) (h : o.freeRuns w = .ok runs) :
    ∃ days, w.days = some days ∧
      runs = (((foldQuanta o.scanQuantum ⟨-1, []⟩ (days.map
        (segment (unixNano w.start) (unixNano w.stop)))).flush (unixNano w.stop)).runs).map
          (Opening.clip (unixNano w.start) (unixNano w.stop)) := by
  unfold freeRuns quantaInPeriod at h
  rw [if_pos (show w.Valid from hlt)] at h
  split at h
  · cases h
  · rename_i segs hsegs
    obtain ⟨days, hdays, rfl⟩ := Option.map_eq_some_iff.mp hsegs
    cases h
    exact ⟨days, hdays, rfl⟩

section

variable (ho : ∀ days ∈ w.days, ∀ d ∈ days, o.Detours d) (hstart : 0 ≤ w.start)
  (hlt : w.start < w.stop) (hlate : lastMidnight < w.stop)

include ho hstart hlt hlate

/-- **After the last midnight** no run reaches the end of a window on a detour. -/
theorem stop_lt_of_mem_freeRuns (h : o.freeRuns w = .ok runs) : ∀ r ∈ runs, r.stop < w.stop := by
  obtain ⟨days, hdays, rfl⟩ := freeRuns_ok hlt h
  have hdetours := ho days hdays
  intro r' hr'
  obtain ⟨r, hr, rfl⟩ := mem_map.mp hr'
  by_cases hfar : w.stop ≤ 9223372036854775807
  · have hN : ∀ t, 0 ≤ t → t ≤ w.stop → unixNano t = t := by
      intro t h0 ht
      refine wrap_of_inRange ?_
      unfold InRange
      omega
    rw [Span.days] at hdays
    rw [hN _ hstart hlt.le, hN _ (by omega) le_rfl] at hr hdays ⊢
    have hday : (w.start.tdiv nsPerDay * nsPerDay) < w.stop ∧
        InRange (w.start.tdiv nsPerDay * nsPerDay) := by
      rw [Int.tdiv_eq_ediv_of_nonneg hstart]
      unfold InRange nsPerDay
      omega
    obtain ⟨hclosed, hearly⟩ := foldQuanta_detours hstart hlt ⟨hlate, hfar⟩ hday hdays hdetours
    rw [RunScan.flush, if_neg (not_le.mpr hclosed)] at hr
    obtain ⟨hr1, hr2⟩ := hearly r hr
    rw [stop_clip hr1.le hr2]
    exact hr1
  · -- the window ends after all int64 nanoseconds
    have hN := (wrap_inRange w.stop).2
    have hearly := (early_foldQuanta o
      (days.map (segment (unixNano w.start) (unixNano w.stop)))).flush (t := w.stop) (by omega)
    obtain ⟨hr1, hr2⟩ := hearly r hr
    unfold Opening.clip unixNano
    dsimp only
    split <;> omega

theorem stop_lt_of_mem_openings {obj : Objective} (h : o.openings w duration obj = .ok ops) :
    ∀ r ∈ ops, r.stop < w.stop := by
  unfold openings at h
  split_ifs at h
  rcases hruns : o.freeRuns w with e | runs
  · rw [hruns] at h
    cases h
  · have hfit : ∀ r ∈ runs.filter fun r => decide (duration ≤ instantSub r.stop r.start),
        r.stop < w.stop := fun r hr =>
      stop_lt_of_mem_freeRuns ho hstart hlt hlate hruns r (mem_filter.mp hr).1
    simp only [hruns] at h
    split at h <;> cases h <;> intro r hr
    · exact hfit r (mem_sortSlice.mp hr)
    · exact hfit r (mem_sortSlice.mp hr)
    · exact hfit r (mem_sortSlice.mp (mem_of_mem_take hr))
    · exact hfit r (mem_sortSlice.mp hr)
    · exact hfit r (mem_sortSlice.mp hr)

end

/-- **Openings and availability.**  For a window at or after the epoch, the openings of any
objective but first-fit agree with the availability reads, whatever the occupancy and the
duration, iff the window ends at the last midnight of int64 nanoseconds or before. -/
theorem openings_agree_iff (w : Span) (hstart : 0 ≤ w.start) (hvalid : w.Valid) :
    (∀ (o : Occupancy) (duration : Int) (obj : Objective), 0 < duration → obj.Known →
      obj ≠ .firstFit → ∃ ops, o.openings w duration obj = .ok ops ∧ o.Agree w duration ops) ↔
    w.stop ≤ lastMidnight := by
  constructor
  · intro h
    by_contra hlate
    obtain ⟨ops, hops, hagree⟩ := h detour 1 .earliest Int.one_pos True.intro (fun h => nomatch h)
    -- the whole window is free, and no opening reaches its end
    have hlt : w.start < w.stop := hvalid
    obtain ⟨r, hr, -, hstop⟩ := hagree.complete w le_rfl le_rfl (by omega) fun g hg => by
      obtain ⟨hg, -⟩ := mem_cells.mp hg
      unfold nsPerQuantum at hg
      exact (detours_detour _).free (by omega)
    have := stop_lt_of_mem_openings (fun _ _ d _ => detours_detour d) hstart hlt
      (not_le.mp hlate) hops r hr
    omega
  · intro hstop o duration obj hd hobj hfirst
    obtain ⟨ops, hops, hmem⟩ := openings_mem (o := o) ⟨hstart, hvalid, hstop⟩ hd hobj hfirst
    exact ⟨ops, hops, agree_fits ⟨hstart, hvalid, hstop⟩ hd hmem⟩

/-- Nine to ten on the first day is taken. -/
def nineToTen : Occupancy where
  binding d := if d = 0 then some ((⊥ : DayBitmap).setRange 108 120) else none
  proposed _ := none

/-- The openings of an hour in a day and a half from 00:01 on. -/
theorem openings_agree_dayAndHalf :
    ∃ ops, nineToTen.openings ⟨60000000000, 129600000000000⟩ 3600000000000 .earliest = .ok ops ∧
      nineToTen.Agree ⟨60000000000, 129600000000000⟩ 3600000000000 ops :=
  (openings_agree_iff ⟨60000000000, 129600000000000⟩ (by decide) (by decide)).mpr (by decide)
    nineToTen 3600000000000 .earliest (by decide) True.intro (fun h => nomatch h)

/-- From April 10, 2262 until 2300. -/
def farWindow : Span := ⟨9223200000000000000, 10413792000000000000⟩

/-- Its first hour. -/
def farHour : Span := ⟨9223200000000000000, 9223203600000000000⟩

/-- Nothing is taken, and the first hour is reported free; the end of the window wraps to a
time before its start, and there is no opening. -/
theorem far_window_no_openings : empty.isFree farHour = .ok true ∧
      empty.openings farWindow 3600000000000 .earliest = .ok [] ∧
      ¬ empty.Agree farWindow 3600000000000 [] := by
  have hfree : ∀ g, empty.Free g := fun g => ⟨test_bot, test_bot⟩
  refine ⟨?_, by decide +kernel, fun h => ?_⟩
  · rw [isFree_eq ⟨by decide, by decide, by decide⟩]
    exact congrArg Except.ok (decide_eq_true fun g _ => hfree g)
  · obtain ⟨r, hr, -⟩ := h.complete farHour (by decide) (by decide) (by decide) fun g _ => hfree g
    cases hr

end Occupancy

end Xolu.Cal
