/-
# Exclusivity of a calendar (pkg/cal/lifecycle.go, pkg/cal/commit.go, pkg/cal/dxp_adapter.go)

A booking takes the whole calendar for its span, so no two bookings of one calendar that are
binding or honoured should overlap.  `Exclusive` says so of the records.

Of the writes that put a record on the binding plane only `move` looks for conflicts itself.
`matchCommit` looks before it places anything, which is enough for members on different
calendars; a creation, a confirmation and the execution of a reservation do not look at all.
`bindings_exclusive` is the whole run in which those writes find the calendar clear.
-/
import Xolu.Cal.Adapter

namespace Xolu.Cal

open List Dxp Runs Lifecycle Xolu.Cal.Span

/-! ### Overlap -/

/-- An instant lies in both spans. -/
def Span.Overlaps (a b : Span) : Prop := ∃ t, (a.start ≤ t ∧ t < a.stop) ∧ b.start ≤ t ∧ t < b.stop

theorem Span.overlaps_iff {a b : Span} :
    a.Overlaps b ↔ max a.start b.start < min a.stop b.stop := by
  constructor
  · rintro ⟨t, ha, hb⟩
    exact lt_of_le_of_lt (max_le ha.1 hb.1) (lt_min ha.2 hb.2)
  · intro h
    refine ⟨max a.start b.start, ⟨le_max_left .., ?_⟩, le_max_right .., ?_⟩
    · exact h.trans_le (min_le_left ..)
    · exact h.trans_le (min_le_right ..)

theorem Span.Overlaps.symm {a b : Span} : a.Overlaps b → b.Overlaps a
  | ⟨t, ha, hb⟩ => ⟨t, hb, ha⟩

/-- `spanOverlap` finds a common part iff the spans overlap as the table keeps them. -/
theorem spanOverlap_eq_none_iff {a b : Span} :
    spanOverlap a b = none ↔ ¬ a.stored.Overlaps b.stored := by
  rw [overlaps_iff]
  show (if _ then _ else _) = none ↔ _
  rw [← max_def_lt, ← min_def_lt]
  simp [stored, min_comm]

@[simp] theorem Span.stored_stored (a : Span) : a.stored.stored = a.stored := by
  simp only [stored, unixNano, Num64.wrap_of_inRange (Num64.wrap_inRange _)]

/-! ### Exclusive records -/

/-- The booking is binding or honoured. -/
def Booking.Binds (b : Booking) : Prop := b.state.occupiesPlane = some .binding
deriving Decidable

theorem Booking.binds_iff {b : Booking} : b.Binds ↔ b.state = .binding ∨ b.state = .honoured := by
  unfold Booking.Binds
  cases b.state <;> simp [State.occupiesPlane]

namespace Source

/-- No two bookings of one calendar that are binding or honoured overlap. -/
def Exclusive (s : Source) : Prop :=
  ∀ a ∈ s.bookings, ∀ b ∈ s.bookings, a.Binds → b.Binds → a.calendarID = b.calendarID →
    a.bookingID ≠ b.bookingID → ¬ a.span.Overlaps b.span

/-- The check of `Move`, for a record about to be written: on the binding plane it is in
conflict with no other. -/
def Clear (s : Source) (b : Booking) : Prop :=
  b.Binds → s.spanConflicts b.calendarID b.span .binding b.bookingID = []
deriving Decidable

instance (s : Source) (b : Booking) : Decidable (s.Accepts b) :=
  decidable_of_iff _ (s.accepts_iff b).symm

/-- The records are exclusive, named, and hold their spans as they are read back. -/
structure Kept (s : Source) : Prop where
  stored : ∀ r ∈ s.bookings, r.span.stored = r.span
  named : ∀ r ∈ s.bookings, r.bookingID ≠ ""
  exclusive : s.Exclusive

variable {s s' : Source} {b nb : Booking} {cal : String} {when' : Span}

theorem kept_empty : Source.empty.Kept :=
  ⟨fun _ hr => (nomatch hr), fun _ hr => (nomatch hr), fun _ hr => (nomatch hr)⟩

variable {plane : Plane}

theorem spanConflicts_eq_nil_iff {exclude : String} : s.spanConflicts cal when' plane exclude = [] ↔
      ∀ r ∈ s.bookings, r.calendarID = cal → r.state.occupiesPlane = some plane →
        r.bookingID ≠ exclude → ¬ r.span.stored.Overlaps when'.stored := by
  unfold spanConflicts
  rw [filterMap_eq_nil_iff]
  simp only [mem_liveBookingsOn, ite_eq_left_iff, Option.map_eq_none_iff, spanOverlap_eq_none_iff,
    and_imp, ne_eq]

/-- A span that is free with nothing excluded is free with any record excluded. -/
theorem Kept.spanConflicts_exclude (h : s.Kept) (hfree : s.spanConflicts cal when' plane "" = [])
    (exclude : String) : s.spanConflicts cal when' plane exclude = [] := by
  rw [spanConflicts_eq_nil_iff] at hfree ⊢
  intro r hr hcal hplane _
  exact hfree r hr hcal hplane (h.named r hr)

/-- The check sees the span as it will be stored. -/
theorem spanConflicts_stored {exclude : String} :
    s.spanConflicts cal when'.stored plane exclude = [] ↔
      s.spanConflicts cal when' plane exclude = [] := by
  rw [spanConflicts_eq_nil_iff, spanConflicts_eq_nil_iff, stored_stored]

/-- On kept records `Clear` is about the spans themselves. -/
theorem Kept.clear_iff (h : s.Kept) (hst : nb.span.stored = nb.span) :
    s.Clear nb ↔ ∀ r ∈ s.bookings, nb.Binds → r.Binds → r.calendarID = nb.calendarID →
      r.bookingID ≠ nb.bookingID → ¬ r.span.Overlaps nb.span := by
  unfold Clear
  rw [spanConflicts_eq_nil_iff, hst]
  constructor
  · intro hc r hr hnb hbinds hcal hid
    rw [← h.stored r hr]
    exact hc hnb r hr hcal hbinds hid
  · intro hc hnb r hr hcal hbinds hid
    rw [h.stored r hr]
    exact hc r hr hnb hbinds hcal hid

/-- A record of the calendar is in conflict with no other. -/
theorem Kept.clear_of_mem (h : s.Kept) (hb : b ∈ s.bookings) (hbinds : b.Binds)
    (hkey : nb.key = b.key) (hspan : nb.span = b.span) : s.Clear nb := by
  obtain ⟨hcal, hid⟩ := Prod.ext_iff.mp hkey
  refine (h.clear_iff (hspan ▸ h.stored b hb)).mpr fun r hr _ hr' hrcal hrid => ?_
  rw [hspan]
  exact h.exclusive r hr b hb hr' hbinds (hrcal.trans hcal) (fun e => hrid (e.trans hid.symm))

/-- **One write.**  A record that is clear of the others keeps the calendar exclusive. -/
theorem Kept.write (h : s.Kept) (hmem : ∀ r ∈ s'.bookings, r = nb ∨ r ∈ s.bookings ∧ r.key ≠ nb.key)
    (hst : nb.span.stored = nb.span) (hname : nb.bookingID ≠ "") (hclear : s.Clear nb) :
    s'.Kept := by
  rw [h.clear_iff hst] at hclear
  refine ⟨fun r hr => ?_, fun r hr => ?_, fun a ha b hb habinds hbbinds hcal hid => ?_⟩
  · rcases hmem r hr with rfl | ⟨hr, -⟩
    · exact hst
    · exact h.stored r hr
  · rcases hmem r hr with rfl | ⟨hr, -⟩
    · exact hname
    · exact h.named r hr
  · rcases hmem a ha with rfl | ⟨ha, -⟩ <;> rcases hmem b hb with rfl | ⟨hb, -⟩
    · exact absurd rfl hid
    · exact fun ho => hclear b hb habinds hbbinds hcal.symm (Ne.symm hid) ho.symm
    · exact hclear a ha hbbinds habinds hcal hid
    · exact h.exclusive a ha b hb habinds hbbinds hcal hid

theorem Kept.putRow (h : s.Kept) (hst : nb.span.stored = nb.span) (hname : nb.bookingID ≠ "")
    (hclear : s.Clear nb) : (s.putRow nb).Kept :=
  h.write (fun _ hr => mem_putRow.mp hr) hst hname hclear

theorem Kept.updateRow (h : s.Kept) (hb : b ∈ s.bookings) (hkey : b.key = nb.key)
    (hst : nb.span.stored = nb.span) (hclear : s.Clear nb) : (s.updateRow nb).Kept := by
  have hid : b.bookingID = nb.bookingID := (Prod.ext_iff.mp hkey).2
  exact h.write (fun _ hr => (mem_updateRow hb hkey).mp hr) hst (hid ▸ h.named b hb) hclear

/-- The creation of a calendar leaves the bookings. -/
theorem Kept.createCalendar (h : s.Kept) {c created : Calendar}
    (hc : s.createCalendar c = .ok (created, s')) : s'.Kept := by
  unfold Source.createCalendar at hc
  dsimp only at hc
  split at hc
  · cases hc
  split at hc
  · split at hc
    · cases hc
    · cases hc
      exact ⟨h.stored, h.named, h.exclusive⟩
  · cases hc

end Source

namespace Lifecycle

open Source

variable {l : Lifecycle} {b : Booking} {cal id : String} {when' : Span}

/-! ### The operations -/

/-- A creation that is accepted finds the calendar clear, and so does the confirmation of a
proposal with a bearer. -/
def Clears (l : Lifecycle) : LifecycleCmd → Prop
  | .create b => l.src.Accepts (l.resolve b) → l.src.Clear (l.written b)
  | .confirm cal id =>
    ∀ b ∈ l.src.booking cal id, b.state = .proposed → validEntity b.bearer = true →
      l.src.Clear { b with state := .binding }
  | _ => True

instance (l : Lifecycle) : DecidablePred l.Clears
  | .create _ => inferInstanceAs (Decidable (_ → _))
  | .confirm .. => inferInstanceAs (Decidable (∀ _ ∈ _, _))
  | .decline .. | .complete .. | .cancel .. | .markMissed .. | .move .. =>
    .isTrue trivial

theorem kept_create (h : l.src.Kept)
    (hc : l.src.Accepts (l.resolve b) → l.src.Clear (l.written b)) : (l.create b).2.src.Kept := by
  rcases create_cases l b with ⟨-, heq⟩ | ⟨hacc, heq⟩
  · rw [heq]
    exact h
  · rw [heq, src_addToPlane]
    refine h.putRow (stored_stored _) ?_ (hc hacc)
    exact hacc.ids.1

/-- Of the transitions only a confirmation brings a booking onto the binding plane. -/
theorem binds_of_honoured {before : State} (h : allowedTransition before .honoured = true) :
    before = .binding := by
  cases before <;> first | rfl | simp [allowedTransition] at h

theorem eq_proposed_of_binding {before : State} (h : allowedTransition before .binding = true) :
    before = .proposed := by
  cases before <;> first | rfl | simp [allowedTransition] at h

theorem kept_transition (h : l.src.Kept) {after : State}
    (hc : after = .binding → l.Clears (.confirm cal id)) :
    (l.transition cal id after).2.src.Kept := by
  rcases transition_cases l cal id after with heq | ⟨b, hb, hallowed, hbearer, heq⟩
  · rw [heq]
    exact h
  · rw [heq, src_follow]
    obtain ⟨hmem, -⟩ := mem_of_booking hb
    refine h.updateRow hmem rfl (h.stored b hmem) fun hbinds => ?_
    rcases Booking.binds_iff.mp hbinds with hst | hst
    · obtain rfl : after = .binding := hst
      exact hc rfl b hb (eq_proposed_of_binding hallowed) (hbearer rfl) hbinds
    · obtain rfl : after = .honoured := hst
      -- the booking was binding at the same span
      have hwas : b.Binds := Booking.binds_iff.mpr (.inl (binds_of_honoured hallowed))
      exact h.clear_of_mem hmem hwas rfl rfl hbinds

/-- A cancellation takes a booking off its plane. -/
theorem kept_cancel (h : l.src.Kept) (cal id : String) : (l.cancel cal id).2.src.Kept :=
  kept_transition h fun e => nomatch e

/-- `Move` has looked for conflicts. -/
theorem kept_move (h : l.src.Kept) (dest : Span) : (l.move cal id dest).2.src.Kept := by
  rcases move_cases l cal id dest with heq | ⟨b, plane, hb, -, -, hplane, hconf, heq⟩
  · rw [heq]
    exact h
  · rw [heq, src_replace]
    obtain ⟨hmem, rfl, -⟩ := mem_of_booking hb
    refine h.updateRow hmem rfl (stored_stored _) fun hbinds => ?_
    obtain rfl : plane = .binding := Option.some.inj (hplane.symm.trans hbinds)
    exact spanConflicts_stored.mpr hconf

theorem kept_step (l : Lifecycle) (c : LifecycleCmd) (h : l.src.Kept) (hc : l.Clears c) :
    (l.step c).src.Kept := by
  cases c with
  | create b => exact kept_create h hc
  | confirm cal id => exact kept_transition h fun _ => hc
  | decline | complete | cancel | markMissed => exact kept_transition h fun e => nomatch e
  | move cal id dest => exact kept_move h dest

/-! ### MatchCommit -/

/-- A calendar whose bookings are binding by default. -/
def BindsByDefault (cal : Calendar) : Prop := cal.defaultState.occupiesPlane = some .binding
deriving Decidable

/-- The calendars of the members that will be binding, in order. -/
def bindingCalendars (l : Lifecycle) (members : List CommitMember) : List String :=
  (members.filter fun m => (l.src.calendar m.calendarID).any fun c => decide (BindsByDefault c)).map
    CommitMember.calendarID

/-- What `placeAll` needs of the members it has still to place: they are looked up, and those
that will be binding are on different calendars and free on them. -/
structure Placeable (l : Lifecycle) (when' : Span) (res : List ResolvedMember) :
    Prop where
  found : ∀ r ∈ res, l.src.calendar r.1.calendarID = some r.1
  distinct : ((res.filter fun r => decide (BindsByDefault r.1)).map fun r => r.1.calendarID).Nodup
  free : ∀ r ∈ res, BindsByDefault r.1 → l.src.spanConflicts r.1.calendarID when' .binding "" = []

variable {r : ResolvedMember}

section

variable (hfound : l.src.calendar r.1.calendarID = some r.1)

include hfound

/-- A member's booking has its calendar's default state already. -/
theorem resolve_member (when' : Span) :
    l.resolve (memberBooking when' r) = memberBooking when' r := by
  unfold resolve
  rw [show (memberBooking when' r).calendarID = r.1.calendarID from rfl, hfound]
  exact ite_eq_right_iff.mpr fun _ => rfl

/-- The record of a member. -/
theorem written_member (when' : Span) :
    (l.written (memberBooking when' r)).state = r.1.defaultState ∧
      (l.written (memberBooking when' r)).calendarID = r.1.calendarID ∧
      (l.written (memberBooking when' r)).span = when'.stored := by
  rw [written, resolve_member hfound]
  exact ⟨rfl, rfl, rfl⟩

theorem binds_written_member :
    (l.written (memberBooking when' r)).Binds ↔ BindsByDefault r.1 := by
  rw [Booking.Binds, (written_member hfound when').1, BindsByDefault]

/-- A free member keeps the calendar exclusive. -/
theorem kept_member (h : l.src.Kept)
    (hfree : BindsByDefault r.1 → l.src.spanConflicts r.1.calendarID when' .binding "" = []) :
    (l.create (memberBooking when' r)).2.src.Kept := by
  refine kept_create h fun _ hbinds => ?_
  obtain ⟨-, hcal, hspan⟩ := written_member hfound when'
  rw [hcal, hspan, spanConflicts_stored]
  exact h.spanConflicts_exclude (hfree ((binds_written_member hfound).mp hbinds)) _

end

/-- A creation writes one record and no calendar. -/
theorem create_src (l : Lifecycle) (b : Booking) : (l.create b).2.src.calendars = l.src.calendars ∧
      ∀ r ∈ (l.create b).2.src.bookings, r = l.written b ∨ r ∈ l.src.bookings := by
  rcases create_cases l b with ⟨-, heq⟩ | ⟨-, heq⟩ <;> rw [heq]
  · exact ⟨rfl, fun r hr => .inr hr⟩
  · rw [src_addToPlane]
    exact ⟨rfl, fun r hr => (mem_putRow.mp hr).imp_right And.left⟩

variable {res : List ResolvedMember}

/-- The members after one that is placed stay placeable. -/
theorem Placeable.tail (h : l.Placeable when' (r :: res)) :
    (l.create (memberBooking when' r)).2.Placeable when' res := by
  obtain ⟨hcals, hrows⟩ := create_src l (memberBooking when' r)
  have hfound := h.found r mem_cons_self
  refine ⟨fun r' hr' => ?_, ?_, fun r' hr' hbinds' => ?_⟩
  · rw [← h.found r' (mem_cons_of_mem _ hr')]
    unfold calendar
    rw [hcals]
  · exact h.distinct.sublist (((sublist_cons_self r res).filter _).map _)
  · have hfree := h.free r' (mem_cons_of_mem _ hr') hbinds'
    rw [spanConflicts_eq_nil_iff] at hfree ⊢
    intro x hx hcal hplane hne
    rcases hrows x hx with rfl | hx
    · -- the record just written is not on this member's calendar, if it is binding
      have hbinds := (binds_written_member hfound).mp hplane
      have hdist := h.distinct
      rw [filter_cons_of_pos (by simpa using hbinds), map_cons, nodup_cons] at hdist
      refine absurd ?_ hdist.1
      rw [← (written_member hfound when').2.1, hcal]
      exact mem_map_of_mem (mem_filter.mpr ⟨hr', by simpa using hbinds'⟩)
    · exact hfree x hx hcal hplane hne

theorem kept_rollback (h : l.src.Kept) (placed : List String)
    (res : List ResolvedMember) : (l.rollback placed res).src.Kept := by
  refine foldlRecOn (motive := fun l : Lifecycle => l.src.Kept) res _ h fun l h r _ => ?_
  split
  · exact kept_cancel h ..
  · exact h

/-- Placing the members one after the other, with the rollback of a failure. -/
theorem kept_placeAll {all res : List ResolvedMember} {placed : List String} (h : l.src.Kept)
    (hp : l.Placeable when' res) : (placeAll when' all res placed l).2.src.Kept := by
  induction res generalizing l placed with
  | nil => exact h
  | cons r res ih =>
    have hkept := kept_member (hp.found r mem_cons_self) h (hp.free r mem_cons_self)
    have htail := hp.tail
    unfold placeAll
    split <;> rename_i heq <;> rw [heq] at hkept htail
    · exact kept_rollback hkept ..
    · exact ih hkept htail

variable {members : List CommitMember}

/-- The members that are resolved: distinct and named, with the calendars they name. -/
theorem resolveMembers_ok {seen : List String} (h : l.resolveMembers members seen = .ok res) :
    res.map Prod.snd = members ∧ (members.map CommitMember.seenKey).Nodup ∧
      (∀ r ∈ res, r.2.seenKey ∉ seen ∧ r.2.bookingID ≠ "") ∧
      ∀ r ∈ res, l.src.calendar r.2.calendarID = some r.1 := by
  induction members generalizing seen res with
  | nil =>
    cases h
    exact ⟨rfl, nodup_nil, fun _ hr => (nomatch hr), fun _ hr => (nomatch hr)⟩
  | cons m members ih =>
    unfold resolveMembers at h
    split at h
    · cases h
    rename_i c hcal
    split_ifs at h with hid hseen
    split at h
    · cases h
    rename_i tail htail
    cases h
    obtain ⟨rfl, hnd, hnew, hfound⟩ := ih htail
    rw [forall_mem_cons, forall_mem_cons]
    refine ⟨rfl, nodup_cons.mpr ⟨?_, hnd⟩, ⟨⟨hseen, hid⟩, fun r hr => ?_⟩, hcal, hfound⟩
    · rw [map_map, mem_map]
      rintro ⟨r, hr, hkey⟩
      exact (hnew r hr).1 (mem_cons.mpr (.inl hkey))
    · exact ⟨not_mem_of_not_mem_cons (hnew r hr).1, (hnew r hr).2⟩

theorem placeable_of_resolved
    (h : l.resolveMembers members [] = .ok res) (hdist : (l.bindingCalendars members).Nodup)
    (hfree : ∀ r ∈ res, l.memberConflicts when' r = []) : l.Placeable when' res := by
  obtain ⟨rfl, -, -, hfound⟩ := resolveMembers_ok h
  have hid : ∀ r ∈ res, r.1.calendarID = r.2.calendarID := fun r hr =>
    (mem_of_calendar (hfound r hr)).2
  refine ⟨fun r hr => ?_, ?_, fun r hr hbinds => ?_⟩
  · rw [hid r hr]
    exact hfound r hr
  · have hsame : (res.filter fun r => decide (BindsByDefault r.1)) =
        res.filter
          ((fun m => (l.src.calendar m.calendarID).any fun c => decide (BindsByDefault c)) ∘
            Prod.snd) :=
      filter_congr fun r hr => by simp [hfound r hr]
    rw [bindingCalendars, filter_map, map_map, ← hsame] at hdist
    rwa [map_congr_left fun r hr => hid r (mem_of_mem_filter hr)]
  · have hnil := hfree r hr
    unfold memberConflicts planeForDefaultState at hnil
    rwa [hbinds] at hnil

variable (l when' members) in
/-- A commit places nothing, or the members it has resolved and found free. -/
theorem matchCommit_cases :
    ((l.matchCommit when' members).2 = l ∧
        (l.matchCommit when' members).1.toOption.map CommitResult.committed ≠ some true ∧
        (members ≠ [] → ∀ res, when'.Valid → l.resolveMembers members [] = .ok res →
          ¬ ∀ r ∈ res, l.memberConflicts when' r = [])) ∨
      ∃ res, when'.Valid ∧ l.resolveMembers members [] = .ok res ∧
        (∀ r ∈ res, l.memberConflicts when' r = []) ∧
        l.matchCommit when' members = placeAll when' res res [] l := by
  unfold matchCommit
  by_cases hm : members = []
  · rw [if_pos hm]
    exact .inl ⟨rfl, nofun, absurd hm⟩
  by_cases hv : when'.Valid
  swap
  · rw [if_neg hm, if_pos hv]
    exact .inl ⟨rfl, nofun, fun _ _ h => absurd h hv⟩
  rw [if_neg hm, if_neg (not_not.mpr hv)]
  rcases hres : l.resolveMembers members [] with - | res
  · exact .inl ⟨rfl, nofun, fun _ _ _ h => nomatch h⟩
  · dsimp only
    split_ifs with hblocked
    · refine .inl ⟨rfl, nofun, fun _ res' _ hres' hfree => hblocked ?_⟩
      cases hres'
      exact filter_eq_nil_iff.mpr fun r hr => by simpa using hfree r hr
    · refine .inr ⟨res, hv, rfl, fun r hr => ?_, rfl⟩
      simpa using filter_eq_nil_iff.mp (not_not.mp hblocked) r hr

/-- **MatchCommit.**  It has looked for conflicts before it places anything, and that is enough
for members on different calendars. -/
theorem kept_matchCommit (h : l.src.Kept)
    (hdist : (l.bindingCalendars members).Nodup) : (l.matchCommit when' members).2.src.Kept := by
  rcases matchCommit_cases l when' members with ⟨hsame, -⟩ | ⟨res, -, hres, hfree, hplaced⟩
  · rwa [hsame]
  · rw [hplaced]
    exact kept_placeAll h (placeable_of_resolved hres hdist hfree)

end Lifecycle

/-! ### The site -/

namespace CalSite

open Source

/-- The steps that write onto the binding plane without looking find it clear: creations and
confirmations, a commit of several members on one calendar, and the execution of a
reservation. -/
def Clears (s : CalSite) : CalCmd → Prop
  | .lifecycle c => s.life.Clears c
  | .matchCommit _ members => (s.life.bindingCalendars members).Nodup
  | .execute c =>
    ∀ tp ∈ s.pending (claimKey c), s.life.src.Accepts tp.booking →
      s.life.src.Clear { tp.booking with mode := .exclusive }.stored
  | _ => True

instance (s : CalSite) : DecidablePred s.Clears
  | .lifecycle c => inferInstanceAs (Decidable (s.life.Clears c))
  | .matchCommit .. => inferInstanceAs (Decidable (List.Nodup _))
  | .execute _ => inferInstanceAs (Decidable (∀ _ ∈ _, _))
  | .createCalendar .. | .reserve .. | .validate .. | .postCommit .. | .release ..
  | .confirmTxn .. | .releaseTxn .. | .tick .. => .isTrue trivial

variable {s : CalSite}

/-- A reservation writes no record. -/
theorem life_reserve (tenant : String) (tp : CalTransitionParams) (txn participantID : String)
    (deadline : Int) (w : Dxp.Weight) :
    (s.reserve tenant tp txn participantID deadline w).2.life = s.life := by
  -- the ways out of `reserve`, in the order of its checks
  unfold reserve
  split
  · rfl
  split
  · rfl
  split
  · rfl
  split
  · rfl
  rename_i cal _
  generalize (if tp.state = .unset then cal.defaultState else tp.state) = st
  dsimp only
  split
  · rfl
  split
  · rfl
  split
  · rfl
  · rfl

theorem kept_execute (h : s.life.src.Kept) {c : Dxp.Claim} (hc : s.Clears (.execute c)) :
    (s.execute c).2.life.src.Kept := by
  unfold execute
  split
  · exact h
  rename_i tp htp
  split
  · exact h
  rename_i src hsrc
  obtain ⟨hacc, rfl⟩ := putBooking_eq_ok_iff.mp hsrc
  exact h.putRow (stored_stored _) hacc.ids.1 (hc tp htp hacc)

theorem src_postCommit (c : Dxp.Claim) : (s.postCommit c).2.life.src = s.life.src := by
  unfold postCommit
  split
  · rfl
  · dsimp only
    split
    · rfl
    · exact src_addToPlane

theorem kept_step (s : CalSite) (c : CalCmd) (h : s.life.src.Kept) (hc : s.Clears c) :
    (s.step c).life.src.Kept := by
  cases c with
  | createCalendar cal =>
    show (s.life.createCalendar cal).2.src.Kept
    unfold Lifecycle.createCalendar
    split
    · exact h
    · rename_i created src heq
      exact h.createCalendar heq
  | lifecycle c => exact Lifecycle.kept_step s.life c h hc
  | matchCommit when' members => exact kept_matchCommit h hc
  | reserve tenant tp txn participantID deadline w =>
    show (s.reserve tenant tp txn participantID deadline w).2.life.src.Kept
    rw [life_reserve]
    exact h
  | execute c => exact kept_execute h hc
  | postCommit c =>
    show (s.postCommit c).2.life.src.Kept
    rw [src_postCommit]
    exact h
  | validate | release | confirmTxn | releaseTxn | tick => exact h

/-- **Exclusivity.**  After every step of a run of the lifecycle, `MatchCommit` and the dxp
participant on any calendars, no two bookings of one calendar that are binding or honoured
overlap, as long as the steps that do not look for conflicts find the calendar clear. -/
theorem bindings_exclusive (tenant : String) (now : Int) (cmds : List CalCmd)
    (hclear : Along step Clears (init tenant now) cmds) :
    Along step (fun s c => (s.step c).life.src.Exclusive) (init tenant now) cmds :=
  along_of_invariant kept_step (fun s c h hc => (kept_step s c h hc).exclusive) kept_empty hclear

/-- Two proposals that do not overlap, confirmed, one of them moved up to the other, a
reservation in the next hour, a commit in the one after it and a completion. -/
def fullDay : List CalCmd :=
  [.createCalendar ⟨"room", 0, .unset, .other ""⟩,
   .lifecycle (.create (proposal "a" (hours 9 10) 0)),
   .lifecycle (.create (proposal "b" (hours 14 15) 0)),
   .lifecycle (.confirm "room" "a"), .lifecycle (.confirm "room" "b"),
   .lifecycle (.move "room" "b" (hours 10 11)),
   .reserve "acme" ⟨"room", "c", hours 11 12, .exclusive, 7, .unset⟩ "7" "guest" 100 .pessimistic,
   .execute ⟨"7", "cal", "acme", "", .pessimistic, 1, 100, "guest"⟩,
   .matchCommit (hours 12 13) [⟨"room", "d", .exclusive, 7⟩],
   .lifecycle (.complete "room" "a")]

theorem bindings_exclusive_fullDay :
    Along step (fun s c => (s.step c).life.src.Exclusive) (init "acme" 0) fullDay :=
  bindings_exclusive "acme" 0 fullDay (by decide +kernel)

/-- Two proposals for one hour.  Both are accepted, since proposals bind nobody, and then both
are confirmed. -/
theorem confirm_does_not_look :
    let s := run step (init "acme" 0)
      [.createCalendar ⟨"room", 0, .unset, .other ""⟩,
       .lifecycle (.create (proposal "a" (hours 9 10) 0)),
       .lifecycle (.create (proposal "b" (hours 9 10) 0)),
       .lifecycle (.confirm "room" "a"), .lifecycle (.confirm "room" "b")]
    s.life.src.bookings.map (fun b => (b.calendarID, b.bookingID, b.state, b.span)) =
        [("room", "a", .binding, hours 9 10), ("room", "b", .binding, hours 9 10)] ∧
      ¬ s.life.src.Exclusive := by
  intro s
  have hrows : s.life.src.bookings =
      [{ proposal "a" (hours 9 10) 0 with state := .binding },
       { proposal "b" (hours 9 10) 0 with state := .binding }] := by
    decide +kernel
  refine ⟨by rw [hrows]; rfl, fun h => ?_⟩
  unfold Exclusive at h
  refine h _ mem_cons_self _ (mem_cons_of_mem _ mem_cons_self) rfl rfl rfl (by decide) ?_
  exact ⟨(hours 9 10).start, ⟨le_rfl, by decide⟩, le_rfl, by decide⟩

end CalSite

end Xolu.Cal
