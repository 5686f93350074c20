/-
# All or nothing (pkg/cal/commit.go)

`MatchCommit` places one booking for each of its members, or none: it looks for conflicts
first, creates the bookings one after the other and, when a creation fails, cancels what it
has placed.

The creations and the rollback are followed record by record: `mem_placeRows` and
`bookings_rollback`.  A creation replaces a record that has its key; the rollback goes by
booking ids, over all members.  In the index a cancellation recomputes the days of the booking
from the records (`recomputes_rollback`), which shows where the two have drifted apart.
`commit_whole_iff` says exactly when what is left is all or nothing.
-/
import Mathlib.Data.List.TakeWhile
import Xolu.Cal.Exclusive

namespace Xolu.Cal

open List Keyed Derived Source Booking

/-! ### What creations and cancellations leave -/

namespace Source

variable {s s' : Source} {b r : Booking} {rows : List Booking}

/-- The checks of a write look at the calendars only. -/
theorem accepts_congr (h : s'.calendars = s.calendars) : s'.Accepts b ↔ s.Accepts b := by
  have hcal : s'.calendar b.calendarID = s.calendar b.calendarID := by
    unfold calendar
    rw [h]
  exact ⟨fun ha => ⟨ha.ids, ha.span, hcal ▸ ha.calendar, ha.mode, ha.bearer, ha.taken⟩,
    fun ha => ⟨ha.ids, ha.span, hcal ▸ ha.calendar, ha.mode, ha.bearer, ha.taken⟩⟩

/-- Rows inserted or replaced one after the other. -/
def placeRows (s : Source) (rows : List Booking) : Source := rows.foldl putRow s

@[simp] theorem calendars_placeRows : (s.placeRows rows).calendars = s.calendars := by
  induction rows generalizing s with
  | nil => rfl
  | cons r rows ih => exact ih

@[simp] theorem calendar_placeRows : (s.placeRows rows).calendar = s.calendar := by
  unfold calendar
  rw [calendars_placeRows]

@[simp] theorem ordinals_placeRows : (s.placeRows rows).ordinals = s.ordinals := by
  unfold ordinals
  rw [calendar_placeRows]

theorem mem_placeRows (hnd : (rows.map key).Nodup) :
    r ∈ (s.placeRows rows).bookings ↔ r ∈ rows ∨ r ∈ s.bookings ∧ r.key ∉ rows.map key := by
  induction rows generalizing s with
  | nil => simp [placeRows]
  | cons row rows ih =>
    rw [map_cons, nodup_cons] at hnd
    rw [show s.placeRows (row :: rows) = (s.putRow row).placeRows rows from rfl, ih hnd.2,
      mem_putRow, map_cons, mem_cons, mem_cons]
    constructor
    · rintro (hr | ⟨rfl | ⟨hr, hne⟩, hnot⟩)
      · exact .inl (.inr hr)
      · exact .inl (.inl rfl)
      · exact .inr ⟨hr, not_or.mpr ⟨hne, hnot⟩⟩
    · rintro ((rfl | hr) | ⟨hr, hnot⟩)
      · exact .inr ⟨.inl rfl, hnd.1⟩
      · exact .inl hr
      · exact .inr ⟨.inr ⟨hr, fun e => hnot (.inl e)⟩, fun e => hnot (.inr e)⟩

end Source

namespace Booking

/-- The record after a cancellation. -/
def cancelled (b : Booking) : Booking :=
  if allowedTransition b.state .cancelled then { b with state := .cancelled } else b

variable {b : Booking}

@[simp] theorem key_cancelled : b.cancelled.key = b.key := by
  unfold cancelled
  split <;> rfl

@[simp] theorem cancelled_cancelled : b.cancelled.cancelled = b.cancelled := by
  by_cases h : allowedTransition b.state .cancelled = true
  · rw [show b.cancelled = { b with state := .cancelled } from if_pos h]
    rfl
  · have hb : b.cancelled = b := if_neg h
    rw [hb, hb]

/-- A booking that a cancellation leaves live is honoured. -/
theorem live_cancelled : b.cancelled.state.occupiesPlane.isSome ↔ b.state = .honoured := by
  unfold cancelled
  rcases b with ⟨_, _, st, _⟩
  cases st <;> simp [allowedTransition, State.occupiesPlane]

theorem allowed_of_live {st : State} (hlive : st.occupiesPlane.isSome) (hne : st ≠ .honoured) :
    allowedTransition st .cancelled = true := by
  cases st with
  | proposed | binding => rfl
  | honoured => exact absurd rfl hne
  | _ => cases hlive

theorem key_ite_cancelled {c : Prop} [Decidable c] :
    (if c then b.cancelled else b).key = b.key := by
  split
  · exact key_cancelled
  · rfl

theorem not_allowed_cancelled : allowedTransition b.cancelled.state .cancelled = false := by
  unfold cancelled
  split
  · rfl
  · exact Bool.eq_false_of_not_eq_true ‹_›

theorem cancelled_of_honoured (h : b.state = .honoured) : b.cancelled = b := by
  unfold cancelled
  rw [h]
  rfl

end Booking

namespace Lifecycle

variable {l : Lifecycle} {b : Booking} {cal id : String} {when' : Span}
  {r : ResolvedMember} {res pre post : List ResolvedMember}

/-- A cancellation does nothing, or writes the new state and lets the index follow. -/
theorem cancel_cases (l : Lifecycle) (cal id : String) :
    ((∀ b ∈ l.src.bookings, b.key = (cal, id) → allowedTransition b.state .cancelled = false) ∧
        (l.cancel cal id).2 = l) ∨
      ∃ b ∈ l.src.bookings, b.key = (cal, id) ∧ allowedTransition b.state .cancelled = true ∧
        l.cancel cal id = ({ l with src := l.src.updateRow { b with state := .cancelled } } :
          Lifecycle).follow b cal id .cancelled := by
  unfold cancel transition
  rcases hb : l.src.booking cal id with - | b
  · refine .inl ⟨fun r hr hkey => absurd (decide_eq_true hkey) ?_, rfl⟩
    exact find?_eq_none.mp hb r hr
  obtain ⟨hmem, rfl, rfl⟩ := mem_of_booking hb
  dsimp only
  split
  · rename_i hno
    refine .inl ⟨fun r hr hkey => ?_, rfl⟩
    rw [l.src.uniqueBookings.eq_of_key hr hmem hkey]
    exact hno
  · rename_i hallowed
    have hset : l.src.setStateFrom b.calendarID b.bookingID b.state .cancelled =
        .ok (l.src.updateRow { b with state := .cancelled }) := by
      unfold setStateFrom
      simp only [hb, reduceCtorEq, false_and, if_false, ne_eq, not_true_eq_false]
    rw [hset]
    exact .inr ⟨b, hmem, rfl, Bool.eq_true_of_not_eq_false hallowed, rfl⟩

/-- A cancellation, record by record. -/
theorem bookings_cancel (l : Lifecycle) (cal id : String) : (l.cancel cal id).2.src.bookings =
      l.src.bookings.map fun r => if r.key = (cal, id) then r.cancelled else r := by
  rcases l.cancel_cases cal id with ⟨hno, hsame⟩ | ⟨b, hmem, hkey, hallowed, hcancel⟩
  · rw [hsame]
    refine (map_id _).symm.trans (map_congr_left fun r hr => ?_)
    split
    · rw [cancelled, hno r hr ‹_›]
      rfl
    · rfl
  · rw [hcancel, src_follow, ← hkey]
    refine map_congr_left fun r hr => ?_
    change (if r.key = b.key then _ else _) = if r.key = b.key then _ else _
    split
    · rw [l.src.uniqueBookings.eq_of_key hr hmem ‹_›, cancelled, if_pos hallowed]
    · rfl

/-! ### Members -/

/-- The key of a member's booking. -/
def memberKey (r : ResolvedMember) : String × String := (r.1.calendarID, r.2.bookingID)

/-- The record of a member. -/
def memberRow (when' : Span) (r : ResolvedMember) : Booking :=
  { memberBooking when' r with mode := .exclusive }.stored

@[simp] theorem key_memberRow : (memberRow when' r).key = memberKey r := rfl

@[simp] theorem state_memberRow : (memberRow when' r).state = r.1.defaultState := rfl

/-- The booking ids of members. -/
def memberIDs (res : List ResolvedMember) : List String := res.map fun r => r.2.bookingID

/-- The keys of the members that a rollback cancels. -/
def cancelledKeys (placed : List String) (res : List ResolvedMember) : List (String × String) :=
  (res.filter fun m => decide (m.2.bookingID ∈ placed)).map memberKey

theorem mem_cancelledKeys {placed : List String} {k : String × String} :
    k ∈ cancelledKeys placed res ↔ ∃ r ∈ res, r.2.bookingID ∈ placed ∧ memberKey r = k := by
  simp only [cancelledKeys, mem_map, mem_filter, decide_eq_true_eq, and_assoc]

/-- The rollback, record by record. -/
theorem bookings_rollback (placed : List String) (res : List ResolvedMember) :
    (l.rollback placed res).src.bookings =
      l.src.bookings.map fun r => if r.key ∈ cancelledKeys placed res then r.cancelled else r := by
  unfold rollback cancelledKeys
  induction res generalizing l with
  | nil => simp
  | cons m res ih =>
    rw [foldl_cons, ih]
    by_cases hm : m.2.bookingID ∈ placed
    · rw [if_pos hm, bookings_cancel, map_map, filter_cons_of_pos (by simpa using hm)]
      refine map_congr_left fun r _ => ?_
      rw [map_cons, Function.comp_apply]
      by_cases hr : r.key = (m.1.calendarID, m.2.bookingID)
      · rw [if_pos hr, key_cancelled, cancelled_cancelled, ite_self]
        exact (if_pos (mem_cons.mpr (.inl hr))).symm
      · rw [if_neg hr]
        refine if_congr ?_ rfl rfl
        rw [mem_cons]
        exact (or_iff_right hr).symm
    · rw [if_neg hm, filter_cons_of_neg (by simpa using hm)]

/-- The member passes the checks of a write. -/
def Passes (l : Lifecycle) (when' : Span) (r : ResolvedMember) : Prop :=
  l.src.Accepts (memberBooking when' r)
deriving Decidable

variable {l' : Lifecycle}

section placing

variable {s : Source} {f : Key → DayBitmap} (hstart : InReach when'.start)
  (hstop : InReach when'.stop)

include hstart hstop

theorem inReach_member (r : ResolvedMember) : (memberBooking when' r).InReach :=
  ⟨hstart, hstop, .inl rfl⟩

theorem expands_memberRow (hp : s.Accepts (memberBooking when' r)) :
    Expands s.ordinals (memberRow when' r) :=
  ((inReach_member hstart hstop r).expands hp.span (exists_ordinals hp.calendar)).congr rfl
    (inReach_member hstart hstop r).extendedSpan_stored id

/-- The creation of a member that passes the checks. -/
theorem create_member (hfound : s.calendar r.1.calendarID = some r.1)
    (hp : s.Accepts (memberBooking when' r)) :
    (⟨s, .of s.ordinals f⟩ : Lifecycle).create (memberBooking when' r) =
      (.ok (memberBooking when' r), ⟨s.putRow (memberRow when' r),
        .of s.ordinals fun k => f k ⊔ contrib s.ordinals (memberRow when' r) k⟩) := by
  have hreach := inReach_member hstart hstop r
  have hrow : ∀ k, contrib s.ordinals (memberRow when' r) k =
      contrib s.ordinals (memberBooking when' r) k := by
    apply contrib_congr
    · rfl
    · exact hreach.extendedSpan_stored
    · rfl
  unfold create
  rw [show s.calendar (memberBooking when' r).calendarID = some r.1 from hfound,
    if_neg (fun h => nomatch h), resolve_member hfound when']
  simp only [putBooking_eq_ok_iff.mpr ⟨hp, rfl⟩, hrow]
  split
  · simp only [addToPlane, addToPlane_of (hreach.expands hp.span (exists_ordinals hp.calendar))]
    rfl
  · rename_i hocc
    rw [Option.not_isSome_iff_eq_none] at hocc
    simp only [contrib_of_none (occupancySpan_eq_none_iff.mpr hocc), sup_bot_eq]
    rfl

omit hstart hstop in
/-- The creation of a member that does not pass writes nothing. -/
theorem create_refused (hfound : l.src.calendar r.1.calendarID = some r.1)
    (hp : ¬ l.Passes when' r) : ∃ e, l.create (memberBooking when' r) = (.error e, l) := by
  have hres := resolve_member hfound when'
  unfold create
  rw [show l.src.calendar (memberBooking when' r).calendarID = some r.1 from hfound,
    if_neg (fun h => nomatch h), hres]
  dsimp only
  split
  · exact ⟨_, rfl⟩
  · rename_i src hsrc
    exact absurd (putBooking_eq_ok_iff.mp hsrc).1 hp

/-- The members up to the first that does not pass are placed. -/
theorem placeAll_append (all post : List ResolvedMember) (placed : List String)
    (hfound : ∀ r ∈ pre, s.calendar r.1.calendarID = some r.1)
    (hp : ∀ r ∈ pre, s.Accepts (memberBooking when' r)) :
    placeAll when' all (pre ++ post) placed ⟨s, .of s.ordinals f⟩ =
      placeAll when' all post (placed ++ memberIDs pre)
        ⟨s.placeRows (pre.map (memberRow when')), .of s.ordinals fun k =>
          f k ⊔ total (contrib s.ordinals) (pre.map (memberRow when')) k⟩ := by
  induction pre generalizing s f placed with
  | nil => simp [memberIDs, placeRows]
  | cons r pre ih =>
    rw [forall_mem_cons] at hp hfound
    rw [cons_append, placeAll, create_member hstart hstop hfound.1 hp.1]
    refine (ih (s := s.putRow (memberRow when' r)) (placed ++ [r.2.bookingID]) hfound.2
      fun r' hr' => (accepts_congr (by rfl)).mpr (hp.2 r' hr')).trans ?_
    simp only [memberIDs, map_cons, append_assoc, singleton_append, total_cons, sup_assoc,
      ordinals_putRow]
    rfl

end placing

/-! ### A failure -/

/-- What it takes for a rollback to take back what has been placed, and no more, when the members
`post` have not been. -/
structure RollsBack (l : Lifecycle) (pre post : List ResolvedMember) : Prop where
  /-- No live booking has been replaced. -/
  fresh : ∀ r ∈ pre, ∀ b ∈ l.src.liveBookings, b.key ≠ memberKey r
  /-- What has been placed can be cancelled if it is live. -/
  cancels : ∀ r ∈ pre, r.1.defaultState ≠ .honoured
  /-- A member that shares the id of a placed one does not name a booking that can be
  cancelled. -/
  spares : ∀ r ∈ post, r.2.bookingID ∈ memberIDs pre →
    ∀ b ∈ l.src.bookings, b.key = memberKey r → allowedTransition b.state .cancelled = false

theorem memberKey_mem_cancelledKeys (hr : r ∈ pre) :
    memberKey r ∈ cancelledKeys (memberIDs pre) (pre ++ post) :=
  mem_cancelledKeys.mpr ⟨r, mem_append_left _ hr, mem_map.mpr ⟨r, hr, rfl⟩, rfl⟩

/-- A member that is free finds no other booking at its span. -/
theorem not_overlaps_of_free (hfree : l.memberConflicts when' r = []) {plane : Plane}
    (hplane : r.1.defaultState.occupiesPlane = some plane) (hb : b ∈ l.src.bookings)
    (hcal : b.calendarID = r.1.calendarID) (hlive : b.state.occupiesPlane = some plane)
    (hid : b.bookingID ≠ "") : ¬ b.span.stored.Overlaps when'.stored := by
  unfold memberConflicts planeForDefaultState at hfree
  rw [hplane, Option.getD_some, spanConflicts_eq_nil_iff] at hfree
  exact hfree b hb hcal hlive hid

/-- A member that is free has no live record at its span already. -/
theorem not_live_of_free (hv : when'.Valid) (hstart : InReach when'.start)
    (hstop : InReach when'.stop) (hfree : l.memberConflicts when' r = []) (hid : r.2.bookingID ≠ "")
    (hlive : r.1.defaultState.occupiesPlane.isSome) : memberRow when' r ∉ l.src.bookings := by
  intro hmem
  obtain ⟨plane, hplane⟩ := Option.isSome_iff_exists.mp hlive
  refine not_overlaps_of_free hfree hplane hmem rfl hplane hid ?_
  rw [show (memberRow when' r).span.stored = when'.stored from Span.stored_stored when',
    Span.stored_of_inReach hstart hstop]
  exact ⟨when'.start, ⟨le_rfl, hv⟩, le_rfl, hv⟩

/-- What was not placed over is left as it was. -/
theorem RollsBack.kept (h : l.RollsBack pre post) (hb : b ∈ l.src.bookings)
    (hnot : b.key ∉ pre.map memberKey) :
    (if b.key ∈ cancelledKeys (memberIDs pre) (pre ++ post) then b.cancelled else b) = b := by
  split
  · next hc =>
    obtain ⟨r, hr, hshared, hkey⟩ := mem_cancelledKeys.mp hc
    rcases mem_append.mp hr with hr | hr
    · exact absurd (mem_map.mpr ⟨r, hr, hkey⟩) hnot
    · rw [cancelled, h.spares r hr hshared b hb hkey.symm]
      rfl
  · rfl

section placed

variable (hsrc : l'.src = l.src.placeRows (pre.map (memberRow when')))
  (hnd : (pre.map memberKey).Nodup)

include hsrc hnd

/-- The records after the members have been placed. -/
theorem mem_placed : b ∈ l'.src.bookings ↔
    (∃ r ∈ pre, memberRow when' r = b) ∨ b ∈ l.src.bookings ∧ b.key ∉ pre.map memberKey := by
  have hkeys : (pre.map (memberRow when')).map key = pre.map memberKey := map_map
  rw [hsrc, mem_placeRows (hkeys ▸ hnd), hkeys, mem_map]

/-- The records that are left after the rollback: what was placed, what was cancelled beside,
and the rest. -/
theorem mem_rolledBack : b ∈ (l'.rollback (memberIDs pre) (pre ++ post)).src.bookings ↔
      (∃ r ∈ pre, b = (memberRow when' r).cancelled) ∨
      ∃ b₁ ∈ l.src.bookings, b₁.key ∉ pre.map memberKey ∧
        b = if b₁.key ∈ cancelledKeys (memberIDs pre) (pre ++ post) then b₁.cancelled else b₁ := by
  rw [bookings_rollback, mem_map]
  simp only [mem_placed hsrc hnd]
  constructor
  · rintro ⟨b₁, ⟨r, hr, rfl⟩ | ⟨hb₁, hnot⟩, rfl⟩
    · exact .inl ⟨r, hr, if_pos (memberKey_mem_cancelledKeys hr)⟩
    · exact .inr ⟨b₁, hb₁, hnot, rfl⟩
  · rintro (⟨r, hr, rfl⟩ | ⟨b₁, hb₁, hnot, rfl⟩)
    · exact ⟨memberRow when' r, .inl ⟨r, hr, rfl⟩, if_pos (memberKey_mem_cancelledKeys hr)⟩
    · exact ⟨b₁, .inr ⟨hb₁, hnot⟩, rfl⟩

theorem mem_live_iff (h : l.RollsBack pre post) :
    b ∈ (l'.rollback (memberIDs pre) (pre ++ post)).src.liveBookings ↔ b ∈ l.src.liveBookings := by
  simp only [mem_liveBookings, mem_rolledBack hsrc hnd]
  constructor
  · rintro ⟨⟨r, hr, rfl⟩ | ⟨b₁, hb₁, hnot, rfl⟩, hlive⟩
    · exact absurd (live_cancelled.mp hlive) (h.cancels r hr)
    · rw [h.kept hb₁ hnot] at hlive ⊢
      exact ⟨hb₁, hlive⟩
  · rintro ⟨hb, hlive⟩
    have hnot : b.key ∉ pre.map memberKey := by
      intro hk
      obtain ⟨r, hr, hkey⟩ := mem_map.mp hk
      exact h.fresh r hr b (mem_liveBookings.mpr ⟨hb, hlive⟩) hkey.symm
    exact ⟨.inr ⟨b, hb, hnot, (h.kept hb hnot).symm⟩, hlive⟩

omit hnd in
/-- A rollback that keeps the live bookings has cancelled what was placed, and nothing else that
could be cancelled. -/
theorem RollsBack.of_live (hdead : ∀ r ∈ pre, r.1.defaultState.occupiesPlane.isSome →
      memberRow when' r ∉ l.src.bookings) (hnd : (pre.map memberKey ++ post.map memberKey).Nodup)
    (h : ∀ b, b ∈ (l'.rollback (memberIDs pre) (pre ++ post)).src.liveBookings ↔
      b ∈ l.src.liveBookings) : l.RollsBack pre post := by
  simp only [mem_liveBookings, mem_rolledBack hsrc hnd.of_append_left] at h
  have hcancels : ∀ r ∈ pre, r.1.defaultState ≠ .honoured := by
    intro r hr hst
    have hsame : (memberRow when' r).cancelled = memberRow when' r := cancelled_of_honoured hst
    have hlive : (memberRow when' r).state.occupiesPlane.isSome := by
      rw [state_memberRow, hst]
      rfl
    exact hdead r hr hlive ((h _).mp ⟨.inl ⟨r, hr, hsame.symm⟩, hlive⟩).1
  refine ⟨fun r hr b hb hkey => ?_, hcancels, fun r hr hshared b hb hkey => ?_⟩
  · -- the record that is left under the key has been cancelled
    obtain ⟨hb, hlive⟩ := mem_liveBookings.mp hb
    rcases ((h b).mpr ⟨hb, hlive⟩).1 with ⟨r', hr', rfl⟩ | ⟨b₁, hb₁, hnot, rfl⟩
    · exact hcancels r' hr' (live_cancelled.mp hlive)
    · rw [key_ite_cancelled] at hkey
      exact hnot (mem_map.mpr ⟨r, hr, hkey.symm⟩)
  · by_contra hallowed
    rw [Bool.not_eq_false] at hallowed
    have hlive := occupiesPlane_of_allowed hallowed
    rcases ((h b).mpr ⟨hb, hlive⟩).1 with ⟨r', hr', rfl⟩ | ⟨b₁, hb₁, -, rfl⟩
    · rw [key_cancelled] at hkey
      exact (nodup_append.mp hnd).2.2 _ (mem_map.mpr ⟨r', hr', rfl⟩) _
        (mem_map.mpr ⟨r, hr, rfl⟩) hkey
    · rw [key_ite_cancelled] at hkey
      rw [if_pos (mem_cancelledKeys.mpr ⟨r, mem_append_right _ hr, hshared, hkey.symm⟩)]
        at hlive hallowed
      -- it would be live after its cancellation
      have hst := live_cancelled.mp hlive
      rw [cancelled_of_honoured hst, hst] at hallowed
      cases hallowed

end placed

/-! ### The index after a failure -/

theorem Recomputes.trans {l'' : Lifecycle} {K K' : Key → Prop} (h : l.Recomputes l' K)
    (h' : l'.Recomputes l'' K') : l.Recomputes l'' fun k => K k ∨ K' k where
  indexed := h'.indexed
  ordinals := h'.ordinals.trans h.ordinals
  inside k hk := by
    by_cases hk' : K' k
    · exact h'.inside k hk'
    · obtain ⟨hday, hocc⟩ := h'.outside k hk'
      rw [hday, hocc]
      exact h.inside k (hk.resolve_right hk')
  outside k hk := by
    obtain ⟨hnot, hnot'⟩ := not_or.mp hk
    exact ⟨(h'.outside k hnot').1.trans (h.outside k hnot).1,
      (h'.outside k hnot').2.trans (h.outside k hnot).2⟩

theorem Recomputes.congr {K K' : Key → Prop} (h : l.Recomputes l' K) (hK : ∀ k, K k ↔ K' k) :
    l.Recomputes l' K' := by
  rwa [show K = K' from funext fun k => propext (hK k)] at h

/-- Nothing is recomputed. -/
theorem Indexed.recomputes (h : l.Indexed) {K : Key → Prop} (hK : ∀ k, ¬ K k) : l.Recomputes l K :=
  ⟨h, rfl, fun k hk => absurd hk (hK k), fun _ _ => ⟨rfl, rfl⟩⟩

/-- A cancellation recomputes the days of the booking. -/
theorem recomputes_cancel (h : l.Indexed) (cal id : String) :
    l.Recomputes (l.cancel cal id).2 fun k => ∃ b ∈ l.src.bookings, b.key = (cal, id) ∧
      allowedTransition b.state .cancelled = true ∧ b.Touches l.src.ordinals k := by
  rcases l.cancel_cases cal id with ⟨hno, hsame⟩ | ⟨b, hmem, hkey, hallowed, hcancel⟩
  · rw [hsame]
    refine h.recomputes ?_
    rintro k ⟨b, hb, hkey, hallowed, -⟩
    rw [hno b hb hkey] at hallowed
    cases hallowed
  · obtain ⟨s, x⟩ := l
    obtain ⟨⟨f, hx⟩, hexp⟩ := h
    dsimp only at hx hexp hmem hcancel ⊢
    subst hx
    have hocc := occupiesPlane_of_allowed hallowed
    obtain ⟨plane, hplane⟩ := Option.isSome_iff_exists.mp hocc
    have hnb : Expands s.ordinals { b with state := .cancelled } :=
      (hexp b hmem).congr rfl rfl fun _ => hocc
    rw [hcancel, follow, hplane]
    refine (recomputes_remove hexp hmem (by rfl) hplane hnb rfl f).congr fun k =>
      ⟨fun hk => ⟨b, hmem, hkey, hallowed, hk⟩, ?_⟩
    rintro ⟨b', hb', hkey', -, hk⟩
    rwa [s.uniqueBookings.eq_of_key hb' hmem (hkey'.trans hkey.symm)] at hk

/-- The rollback recomputes the days of the bookings that it cancels. -/
theorem recomputes_rollback (h : l.Indexed) (placed : List String) (res : List ResolvedMember) :
    l.Recomputes (l.rollback placed res) fun k => ∃ b ∈ l.src.bookings,
      b.key ∈ cancelledKeys placed res ∧ allowedTransition b.state .cancelled = true ∧
        b.Touches l.src.ordinals k := by
  unfold rollback cancelledKeys
  induction res generalizing l with
  | nil => exact h.recomputes fun k ⟨_, _, hkey, _⟩ => absurd hkey not_mem_nil
  | cons m res ih =>
    rw [foldl_cons]
    by_cases hm : m.2.bookingID ∈ placed
    · rw [if_pos hm, filter_cons_of_pos (by simpa using hm), map_cons]
      have hcancel := recomputes_cancel h m.1.calendarID m.2.bookingID
      refine (hcancel.trans (ih hcancel.indexed)).congr fun k => ?_
      rw [hcancel.ordinals, bookings_cancel]
      constructor
      · rintro (⟨b, hb, hkey, hb'⟩ | ⟨b, hb, hkey, hallowed, hk⟩)
        · exact ⟨b, hb, mem_cons.mpr (.inl hkey), hb'⟩
        · obtain ⟨b₁, hb₁, rfl⟩ := mem_map.mp hb
          rw [key_ite_cancelled] at hkey
          split at hallowed
          · rw [not_allowed_cancelled] at hallowed
            cases hallowed
          · rw [if_neg ‹_›] at hk
            exact ⟨b₁, hb₁, mem_cons_of_mem _ hkey, hallowed, hk⟩
      · rintro ⟨b, hb, hkey, hb'⟩
        by_cases hk : b.key = (m.1.calendarID, m.2.bookingID)
        · exact .inl ⟨b, hb, hk, hb'⟩
        · exact .inr ⟨b, mem_map.mpr ⟨b, hb, if_neg hk⟩, (mem_cons.mp hkey).resolve_left hk, hb'⟩
    · rw [if_neg hm, filter_cons_of_neg (by simpa using hm)]
      exact ih h

/-- Where members have been placed, the index and the records agree. -/
def Agrees (l : Lifecycle) (when' : Span) (pre : List ResolvedMember) : Prop :=
  ∀ r ∈ pre, ∀ k, (memberRow when' r).Touches l.src.ordinals k →
    l.index.dayValue k = l.src.occupied k

section index

variable (hsrc : l'.src = l.src.placeRows (pre.map (memberRow when')))
  (hexp : ∀ b ∈ l.src.bookings, Expands l.src.ordinals b)
  (hrow : ∀ r ∈ pre, Expands l.src.ordinals (memberRow when' r))
  (hnd : (pre.map memberKey).Nodup) (hrb : l.RollsBack pre post)

include hsrc hexp hrow hnd hrb

/-- A rollback that takes back what has been placed recomputes the members' days. -/
theorem recomputes_members (hidx : ∃ f, l'.index = .of l.src.ordinals f) :
    l'.Recomputes (l'.rollback (memberIDs pre) (pre ++ post)) fun k =>
      ∃ r ∈ pre, (memberRow when' r).Touches l.src.ordinals k := by
  have hords : l'.src.ordinals = l.src.ordinals := by
    rw [hsrc, ordinals_placeRows]
  have hexp' : ∀ b ∈ l'.src.bookings, Expands l'.src.ordinals b := by
    intro b hb
    rw [hords]
    rcases (mem_placed hsrc hnd).mp hb with ⟨r, hr, rfl⟩ | ⟨hb, -⟩
    · exact hrow r hr
    · exact hexp b hb
  refine (recomputes_rollback ⟨hords ▸ hidx, hexp'⟩ ..).congr fun k => ⟨?_, ?_⟩
  · rintro ⟨b, hb, hkey, hallowed, hk⟩
    rcases (mem_placed hsrc hnd).mp hb with ⟨r, hr, rfl⟩ | ⟨hb, hnot⟩
    · exact ⟨r, hr, hords ▸ hk⟩
    · -- a booking that was there before cannot be cancelled
      have hkept := hrb.kept hb hnot
      rw [if_pos hkey] at hkept
      rw [← hkept, not_allowed_cancelled] at hallowed
      cases hallowed
  · rintro ⟨r, hr, hk⟩
    refine ⟨memberRow when' r, (mem_placed hsrc hnd).mpr (.inl ⟨r, hr, rfl⟩),
      memberKey_mem_cancelledKeys hr, ?_, hords ▸ hk⟩
    obtain ⟨-, plane, -, hplane, -⟩ := hk
    exact allowed_of_live (Option.isSome_of_eq_some hplane) (hrb.cancels r hr)

/-- The index is as it was if it agreed with the records on the members' days. -/
theorem index_rollback_iff {f : Key → DayBitmap} (hidx : l.index = .of l.src.ordinals f)
    (hidx' : l'.index = .of l.src.ordinals fun k =>
      f k ⊔ total (contrib l.src.ordinals) (pre.map (memberRow when')) k) :
    (l'.rollback (memberIDs pre) (pre ++ post)).index = l.index ↔ l.Agrees when' pre := by
  have hre := recomputes_members hsrc hexp hrow hnd hrb ⟨_, hidx'⟩
  generalize hl'' : l'.rollback (memberIDs pre) (pre ++ post) = l'' at hre
  have hords : l''.src.ordinals = l.src.ordinals := by
    rw [hre.ordinals, hsrc, ordinals_placeRows]
  have hocc : ∀ k, l''.src.occupied k = l.src.occupied k := by
    intro k
    unfold occupied
    rw [hords, total_liveBookings, total_liveBookings, ← hl'']
    exact total_congr_mem fun b => mem_live_iff hsrc hnd hrb
  have hdays : l''.index = l.index ↔ ∀ k, l''.index.dayValue k = l.index.dayValue k := by
    obtain ⟨g, hg⟩ := hre.indexed.index
    rw [hg, hords, hidx, of_eq_of_iff]
    simp only [dayValue_of]
  rw [hdays]
  constructor
  · intro heq r hr k hk
    rw [← heq k, hre.inside k ⟨r, hr, hk⟩, hocc]
  · intro hag k
    by_cases hk : ∃ r ∈ pre, (memberRow when' r).Touches l.src.ordinals k
    · obtain ⟨r, hr, ht⟩ := hk
      rw [hre.inside k ⟨r, hr, ht⟩, hocc, hag r hr k ht]
    · have hnone : total (contrib l.src.ordinals) (pre.map (memberRow when')) k = ⊥ := by
        refine total_eq_bot (forall_mem_map.mpr fun r hr => ?_)
        exact contrib_of_not_touches (hrow r hr) fun ht => hk ⟨r, hr, ht⟩
      rw [(hre.outside k hk).1, hidx', hidx, dayValue_of, dayValue_of, hnone, sup_bot_eq]

end index

/-! ### A success -/

end Lifecycle

/-- Two bookings on one plane of one calendar overlap. -/
def Booking.Clashes (a b : Booking) : Prop :=
  a.key ≠ b.key ∧ a.calendarID = b.calendarID ∧
    (∃ plane, a.state.occupiesPlane = some plane ∧ b.state.occupiesPlane = some plane) ∧
    a.span.stored.Overlaps b.span.stored

/-- The bookings with these keys clash. -/
def Source.Clash (s : Source) (k k' : String × String) : Prop :=
  ∃ a ∈ s.bookings, ∃ b ∈ s.bookings, a.key = k ∧ b.key = k' ∧ a.Clashes b

theorem Booking.Clashes.symm {a b : Booking} (h : a.Clashes b) : b.Clashes a := by
  obtain ⟨hkey, hcal, ⟨plane, ha, hb⟩, hover⟩ := h
  exact ⟨hkey.symm, hcal.symm, ⟨plane, hb, ha⟩, hover.symm⟩

namespace Lifecycle

variable {l : Lifecycle} {when' : Span} {r : ResolvedMember}
  {res pre post : List ResolvedMember}

/-- Every member's booking is there at the span, and on the members' calendars no bookings clash
that did not before. -/
structure Seized (l l' : Lifecycle) (when' : Span) (members : List CommitMember) : Prop where
  placed : ∀ m ∈ members, ∃ b ∈ l'.src.bookings,
    b.key = (m.calendarID, m.bookingID) ∧ b.span = when'
  apart : ∀ k k', k.1 ∈ members.map CommitMember.calendarID → l'.src.Clash k k' → l.src.Clash k k'

/-- Members on one calendar whose bookings will be live clashed before. -/
def Apart (l : Lifecycle) (res : List ResolvedMember) : Prop :=
  ∀ r ∈ res, ∀ r' ∈ res, memberKey r ≠ memberKey r' → r.1.calendarID = r'.1.calendarID →
    r.1.defaultState.occupiesPlane.isSome → l.src.Clash (memberKey r) (memberKey r')

/-- A record beside the members' clashes with none of them, if they are free. -/
theorem not_clashes_of_free (hfree : l.memberConflicts when' r = []) {b : Booking}
    (hb : b ∈ l.src.bookings) (hid : b.bookingID ≠ "") : ¬ (memberRow when' r).Clashes b := by
  rintro ⟨-, hcal, ⟨plane, hr, hplane⟩, hover⟩
  refine not_overlaps_of_free hfree hr hb hcal.symm hplane hid ?_
  rw [show (memberRow when' r).span.stored = when'.stored from Span.stored_stored when'] at hover
  exact hover.symm

section

variable {l' : Lifecycle} {members : List CommitMember}
  (hstart : InReach when'.start) (hstop : InReach when'.stop)
  (hsrc : l'.src = l.src.placeRows (res.map (memberRow when')))
  (hnd : (res.map memberKey).Nodup) (hmembers : res.map Prod.snd = members)
  (hfound : ∀ r ∈ res, l.src.calendar r.2.calendarID = some r.1)

include hstart hstop hsrc hnd hmembers hfound in
/-- Live members on one calendar clash, so they did before. -/
theorem Seized.members_apart (hv : when'.Valid) (h : l.Seized l' when' members) : l.Apart res := by
  intro r hr r' hr' hne hsame hlive
  obtain ⟨plane, hplane⟩ := Option.isSome_iff_exists.mp hlive
  have hcal : ∀ r ∈ res, r.1.calendarID = r.2.calendarID := fun r hr =>
    (mem_of_calendar (hfound r hr)).2
  have hrow : ∀ r ∈ res, memberRow when' r ∈ l'.src.bookings := fun r hr =>
    (mem_placed hsrc hnd).mpr (.inl ⟨r, hr, rfl⟩)
  have hrr : r'.1 = r.1 := by
    have hr₂ := hfound r' hr'
    rw [← hcal r' hr', ← hsame, hcal r hr, hfound r hr] at hr₂
    exact (Option.some.inj hr₂).symm
  refine h.apart _ _ ?_
    ⟨_, hrow r hr, _, hrow r' hr', rfl, rfl, hne, hsame, ⟨plane, hplane, ?_⟩, ?_⟩
  · rw [← hmembers]
    exact mem_map.mpr ⟨r.2, mem_map_of_mem hr, (hcal r hr).symm⟩
  · rw [state_memberRow, hrr]
    exact hplane
  · change when'.stored.stored.Overlaps when'.stored.stored
    rw [Span.stored_stored, Span.stored_of_inReach hstart hstop]
    exact ⟨when'.start, ⟨le_rfl, hv⟩, le_rfl, hv⟩

include hstart hstop hsrc hnd hmembers hfound in
theorem seized_iff (hv : when'.Valid) (hnamed : ∀ b ∈ l.src.bookings, b.bookingID ≠ "")
    (hfree : ∀ r ∈ res, l.memberConflicts when' r = []) :
    l.Seized l' when' members ↔ l.Apart res := by
  refine ⟨Seized.members_apart hstart hstop hsrc hnd hmembers hfound hv,
    fun h => ⟨fun m hm => ?_, ?_⟩⟩
  · rw [← hmembers] at hm
    obtain ⟨r, hr, rfl⟩ := mem_map.mp hm
    refine ⟨_, (mem_placed hsrc hnd).mpr (.inl ⟨r, hr, rfl⟩), ?_, ?_⟩
    · rw [key_memberRow, memberKey, (mem_of_calendar (hfound r hr)).2]
    · exact Span.stored_of_inReach hstart hstop
  · -- only two members can clash that did not before
    rintro k k' - ⟨a, ha, b, hb, rfl, rfl, hab⟩
    rcases (mem_placed hsrc hnd).mp ha with ⟨r, hr, rfl⟩ | ⟨ha, -⟩ <;>
      rcases (mem_placed hsrc hnd).mp hb with ⟨r', hr', rfl⟩ | ⟨hb, -⟩
    · obtain ⟨hne, hsame, ⟨plane, hplane, -⟩, -⟩ := hab
      exact h r hr r' hr' hne hsame (Option.isSome_of_eq_some hplane)
    · exact absurd hab (not_clashes_of_free (hfree r hr) hb (hnamed b hb))
    · exact absurd hab.symm (not_clashes_of_free (hfree r' hr') ha (hnamed a ha))
    · exact ⟨a, ha, b, hb, rfl, rfl, hab⟩

end

/-! ### The commit as a whole -/

/-- The live bookings and the index are as they were. -/
def Untouched (l l' : Lifecycle) : Prop :=
  (∀ b, b ∈ l'.src.liveBookings ↔ b ∈ l.src.liveBookings) ∧ l'.index = l.index

/-- The commit seizes the span for all members if it reports so, and leaves everything as it was
otherwise. -/
def AllOrNothing (l : Lifecycle) (when' : Span) (members : List CommitMember) : Prop :=
  if ((l.matchCommit when' members).1.toOption.map CommitResult.committed) = some true then
    l.Seized (l.matchCommit when' members).2 when' members
  else l.Untouched (l.matchCommit when' members).2

/-- What it takes for members without a conflict: if every one passes the checks of a write, those
on one calendar must not get in each other's way; if one does not, the rollback must be able to
take back the members before it, where the index and the records agree. -/
def PlacesWhole (l : Lifecycle) (when' : Span) (res : List ResolvedMember) : Prop :=
  if ∀ r ∈ res, l.Passes when' r then l.Apart res
  else l.RollsBack (res.takeWhile fun r => decide (l.Passes when' r))
      (res.dropWhile fun r => decide (l.Passes when' r)) ∧
    l.Agrees when' (res.takeWhile fun r => decide (l.Passes when' r))

/-- The condition for all or nothing.  It matters when there is no conflict. -/
def CommitsWhole (l : Lifecycle) (when' : Span) (members : List CommitMember) : Prop :=
  ∀ res, when'.Valid → l.resolveMembers members [] = .ok res →
    (∀ r ∈ res, l.memberConflicts when' r = []) → l.PlacesWhole when' res

variable {members : List CommitMember}

theorem memberKey_nodup
    (h : l.resolveMembers members [] = .ok res) : (res.map memberKey).Nodup := by
  obtain ⟨rfl, hdist, -, hfound⟩ := resolveMembers_ok h
  have hkeys : (res.map Prod.snd).map CommitMember.seenKey =
      (res.map memberKey).map fun k => k.1 ++ "\x00" ++ k.2 := by
    rw [map_map, map_map]
    refine map_congr_left fun r hr => ?_
    show r.2.calendarID ++ "\x00" ++ r.2.bookingID = r.1.calendarID ++ "\x00" ++ r.2.bookingID
    rw [(mem_of_calendar (hfound r hr)).2]
  exact (hkeys ▸ hdist).of_map _

section placing

variable (h : l.Indexed) (hstart : InReach when'.start) (hstop : InReach when'.stop)
  {members : List CommitMember} (hv : when'.Valid)
  (hres : l.resolveMembers members [] = .ok res)
  (hfree : ∀ r ∈ res, l.memberConflicts when' r = [])
  (hplaced : l.matchCommit when' members = placeAll when' res res [] l)

include hres in
theorem calendar_of_resolved : ∀ r ∈ res, l.src.calendar r.1.calendarID = some r.1 := by
  obtain ⟨-, -, -, hfound⟩ := resolveMembers_ok hres
  intro r hr
  rw [(mem_of_calendar (hfound r hr)).2]
  exact hfound r hr

include h hstart hstop hv hres hfree hplaced

/-- Every member passes: all are placed. -/
theorem allOrNothing_of_pass (hnamed : ∀ b ∈ l.src.bookings, b.bookingID ≠ "")
    (hp : ∀ r ∈ res, l.Passes when' r) : l.AllOrNothing when' members ↔ l.Apart res := by
  obtain ⟨f, hidx⟩ := h.index
  have hplace := placeAll_append (f := f) hstart hstop res [] [] (calendar_of_resolved hres) hp
  rw [append_nil, ← hidx] at hplace
  obtain ⟨hmembers, -, -, hfound⟩ := resolveMembers_ok hres
  unfold AllOrNothing
  rw [hplaced, hplace, placeAll]
  exact seized_iff hstart hstop rfl (memberKey_nodup hres) hmembers hfound hv hnamed hfree

/-- A member does not pass: the ones before it are rolled back. -/
theorem allOrNothing_of_fault (hsplit : res = pre ++ r :: post)
    (hp : ∀ r ∈ pre, l.Passes when' r) (hr : ¬ l.Passes when' r) :
    l.AllOrNothing when' members ↔ l.RollsBack pre (r :: post) ∧ l.Agrees when' pre := by
  obtain ⟨f, hidx⟩ := h.index
  have hfound := calendar_of_resolved hres
  have hnd := memberKey_nodup hres
  have hid : ∀ r ∈ res, r.2.bookingID ≠ "" := fun r hr =>
    ((resolveMembers_ok hres).2.2.1 r hr).2
  rw [hsplit] at hfound hnd hid hfree
  rw [forall_mem_append] at hfound
  have hplace := placeAll_append (f := f) hstart hstop res (r :: post) [] hfound.1 hp
  rw [← hidx] at hplace
  generalize hl' : (⟨l.src.placeRows _, _⟩ : Lifecycle) = l' at hplace
  have hsrc : l'.src = l.src.placeRows (pre.map (memberRow when')) := by
    rw [← hl']
  have hcals : l'.src.calendars = l.src.calendars := by
    rw [hsrc, calendars_placeRows]
  have hcal : l'.src.calendar r.1.calendarID = some r.1 := by
    rw [hsrc, calendar_placeRows]
    exact hfound.2 r mem_cons_self
  obtain ⟨e, hrefused⟩ := create_refused hcal fun hp => hr ((accepts_congr hcals.symm).mpr hp)
  have hfault : l.matchCommit when' members =
      (.error e, l'.rollback (memberIDs pre) (pre ++ r :: post)) := by
    rw [hplaced]
    nth_rewrite 2 [hsplit]
    rw [hplace, placeAll, hrefused, nil_append, hsplit]
  rw [map_append] at hnd
  have hdead : ∀ r ∈ pre, r.1.defaultState.occupiesPlane.isSome →
      memberRow when' r ∉ l.src.bookings := fun r hr =>
    not_live_of_free hv hstart hstop (hfree r (mem_append_left _ hr)) (hid r (mem_append_left _ hr))
  unfold AllOrNothing
  rw [hfault, if_neg nofun, Untouched, show (∀ b, _ ↔ b ∈ l.src.liveBookings) ↔ _ from
    ⟨.of_live hsrc hdead hnd, fun h b => mem_live_iff hsrc hnd.of_append_left h⟩]
  refine and_congr_right fun hrb => ?_
  exact index_rollback_iff hsrc h.expands (fun r hr => expands_memberRow hstart hstop (hp r hr))
    hnd.of_append_left hrb hidx (by rw [← hl'])

end placing

/-- **MatchCommit is all or nothing** exactly under `CommitsWhole`: for all members, every span
within reach and every index that knows the calendars. -/
theorem commit_whole_iff (l : Lifecycle) (h : l.Indexed)
    (hnamed : ∀ b ∈ l.src.bookings, b.bookingID ≠ "") (when' : Span)
    (hstart : InReach when'.start) (hstop : InReach when'.stop) (members : List CommitMember) :
    l.AllOrNothing when' members ↔ l.CommitsWhole when' members := by
  rcases matchCommit_cases l when' members with
    ⟨hsame, hnot, hblocked⟩ | ⟨res, hv, hres, hfree, hplaced⟩
  · unfold AllOrNothing
    rw [if_neg hnot, hsame]
    refine iff_of_true ⟨fun _ => Iff.rfl, rfl⟩ fun res hv hres hfree => ?_
    by_cases hm : members = []
    · subst hm
      cases hres
      exact fun _ hr => (nomatch hr)
    · exact absurd hfree (hblocked hm res hv hres)
  have hcond : l.CommitsWhole when' members ↔ l.PlacesWhole when' res := by
    refine ⟨fun hc => hc res hv hres hfree, fun hc res' _ hres' _ => ?_⟩
    cases hres.symm.trans hres'
    exact hc
  rw [hcond, PlacesWhole]
  by_cases hp : ∀ r ∈ res, l.Passes when' r
  · rw [if_pos hp]
    exact allOrNothing_of_pass h hstart hstop hv hres hfree hplaced hnamed hp
  · rw [if_neg hp]
    rcases hpost : res.dropWhile fun r => decide (l.Passes when' r) with - | ⟨r, post⟩
    · exact absurd (fun r hr => of_decide_eq_true (dropWhile_eq_nil_iff.mp hpost r hr)) hp
    · refine allOrNothing_of_fault h hstart hstop hv hres hfree hplaced ?_
        (fun r hr => by simpa using mem_takeWhile_imp hr) ?_
      · rw [← hpost]
        exact takeWhile_append_dropWhile.symm
      · have hhead := head?_dropWhile_not (fun r => decide (l.Passes when' r)) res
        rw [hpost] at hhead
        simpa using hhead

/-- The tables of a tenant with two calendars. -/
def roomsSource : Source :=
  { empty with
    calendars := [⟨"room", 1, .binding, .binding⟩, ⟨"hall", 2, .binding, .binding⟩]
    nextOrd := 2
    uniqueCalendars := by simp [UniqueKey]
    uniqueOrdinals := by simp [UniqueKey]
    ordinals_le := by simp }

/-- The lifecycle over them, with its empty index. -/
def twoRooms : Lifecycle := ⟨roomsSource, .of roomsSource.ordinals fun _ => ⊥⟩

theorem synced_twoRooms : twoRooms.Synced :=
  synced_mk_iff.mpr ⟨fun _ hr => (nomatch hr), fun _ => rfl⟩

/-- The second member has no live bearer: its creation fails, and the first is rolled back. -/
theorem commit_whole_noBearer : twoRooms.AllOrNothing (hours 9 10)
    [⟨"room", "a", .exclusive, 7⟩, ⟨"hall", "b", .exclusive, 0⟩] := by
  refine (commit_whole_iff twoRooms synced_twoRooms.indexed (fun _ hb => (nomatch hb)) (hours 9 10)
    (by decide) (by decide) _).mpr fun res _ hres _ => ?_
  cases hres
  rw [PlacesWhole, if_neg (by decide)]
  refine ⟨⟨fun _ _ _ hb => (nomatch hb), by decide, fun _ _ _ _ hb => (nomatch hb)⟩, ?_⟩
  exact fun _ _ k _ => dayValue_of k

/-- The hall is taken in the afternoon. -/
def hallTaken : Lifecycle :=
  (twoRooms.create ⟨"a", "hall", .binding, hours 14 15, .exclusive, 7, 0⟩).2

/-- The members have one id, and the second has no live bearer: the rollback cancels the booking
that was in the hall before.  Two members on one calendar are both placed, one over the other. -/
theorem rollback_cancels_other :
    let r := hallTaken.matchCommit (hours 9 10)
      [⟨"room", "a", .exclusive, 7⟩, ⟨"hall", "a", .exclusive, 0⟩]
    let r' := twoRooms.matchCommit (hours 9 10)
      [⟨"room", "a", .exclusive, 7⟩, ⟨"room", "b", .exclusive, 7⟩]
    hallTaken.Synced ∧ r.1.toOption.isNone = true ∧
      hallTaken.src.liveBookings = [⟨"a", "hall", .binding, hours 14 15, .exclusive, 7, 0⟩] ∧
      r.2.src.liveBookings = [] ∧ r'.1.toOption.map CommitResult.committed = some true ∧
      (r'.2.src.liveBookings.map fun b => (b.key, b.span)) =
        [(("room", "a"), hours 9 10), (("room", "b"), hours 9 10)] := by
  refine ⟨synced_create_new synced_twoRooms (fun _ hr => (nomatch hr)) (by decide), ?_⟩
  decide +kernel

end Lifecycle

end Xolu.Cal
