/-
# The index and its rebuild (pkg/cal/lifecycle.go, pkg/cal/store.go)

The index is derived: `rebuildFrom` computes it from the records, and the lifecycle keeps it
in step.  `Synced` says that it holds what a rebuild would give.

Transitions always keep it so (`synced_transition`).  A creation joins in what the booking
occupies as it was passed, while a rebuild reads the record back: the two differ for instants
that int64 nanoseconds cannot hold, and nothing is taken back for a record that the creation
has replaced.  `create_rebuilt_iff` is exact about both, and `index_stays_rebuilt` is the whole
run for new bookings with instants within reach.
-/
import Xolu.Cal.Lifecycle
import Xolu.Lib.Run

namespace Xolu.Cal

open List Keyed Derived Runs Source Booking IndexStore Option

variable {ords : String → Option Nat} {f : Key → DayBitmap} {b nb : Booking} {plane : Plane}
  {s : Source}

/-! ### Replacing a record -/

/-- The records under other keys. -/
def Source.others (s : Source) (b : Booking) : List Booking :=
  s.bookings.filter fun r => decide (r.key ≠ b.key)

theorem Source.mem_others {r : Booking} : r ∈ s.others b ↔ r ∈ s.bookings ∧ r.key ≠ b.key := by
  simp [others]

theorem Source.mem_updateRow_iff (hb : b ∈ s.bookings) (hk : b.key = nb.key) (r : Booking) :
    r ∈ (s.updateRow nb).bookings ↔ r = nb ∨ r ∈ s.others nb := by
  rw [mem_updateRow hb hk, mem_others]

theorem Source.mem_bookings_iff (hb : b ∈ s.bookings) (hk : b.key = nb.key) (r : Booking) :
    r ∈ s.bookings ↔ r = b ∨ r ∈ s.others nb := by
  rw [mem_others]
  constructor
  · intro hr
    by_cases h : r.key = nb.key
    · exact .inl (s.uniqueBookings.eq_of_key hr hb (h.trans hk.symm))
    · exact .inr ⟨hr, h⟩
  · rintro (rfl | ⟨hr, -⟩)
    · exact hb
    · exact hr

@[simp] theorem Source.ordinals_updateRow : (s.updateRow nb).ordinals = s.ordinals := rfl

@[simp] theorem Source.ordinals_putRow : (s.putRow nb).ordinals = s.ordinals := rfl

/-- A live booking contributes on the days of its extended span only. -/
theorem contrib_of_not_inScope {ord : Nat} {days : List DayOccupancy}
    (hplane : b.state.occupiesPlane = some plane) (hord : ords b.calendarID = some ord)
    (hdays : spanDays b.extendedSpan = .ok days) {k : Key} (hk : ¬ InScope ord plane days k) :
    contrib ords b k = ⊥ := by
  rw [contrib_of_some (occupancySpan_eq_some_iff.mpr ⟨rfl, hplane⟩)]
  split
  · rename_i hkey
    rw [bitsOf_ok hdays]
    refine bitsAt_of_not_mem fun hmem => hk ⟨?_, hkey.2.symm, hmem⟩
    exact some.inj (hkey.1.symm.trans hord)
  · rfl

/-- The booking is on a plane, and this is one of its days. -/
def Booking.Touches (ords : String → Option Nat) (b : Booking) (k : Key) : Prop :=
  ∃ ord plane days, b.state.occupiesPlane = some plane ∧ ords b.calendarID = some ord ∧
    spanDays b.extendedSpan = .ok days ∧ InScope ord plane days k

theorem contrib_of_not_touches {k : Key} (hexp : Expands ords b) (h : ¬ b.Touches ords k) :
    contrib ords b k = ⊥ := by
  rcases hocc : b.occupancySpan with - | ⟨span, plane⟩
  · exact contrib_of_none hocc k
  · obtain ⟨⟨ord, hord⟩, days, hdays⟩ := hexp span plane hocc
    obtain ⟨rfl, hplane⟩ := occupancySpan_eq_some_iff.mp hocc
    exact contrib_of_not_inScope hplane hord hdays
      fun hk => h ⟨ord, plane, days, hplane, hord, hdays, hk⟩

/-- Two bookings on the same plane of the same calendar with the same extended span. -/
theorem contrib_congr (hcal : nb.calendarID = b.calendarID)
    (hspan : nb.extendedSpan = b.extendedSpan)
    (hst : nb.state.occupiesPlane = b.state.occupiesPlane) (k : Key) :
    contrib ords nb k = contrib ords b k := by
  unfold contrib occupancySpan
  rw [hcal, hspan, hst]

theorem Expands.congr (h : Expands ords b) (hcal : nb.calendarID = b.calendarID)
    (hspan : nb.extendedSpan = b.extendedSpan)
    (hst : nb.state.occupiesPlane.isSome → b.state.occupiesPlane.isSome) : Expands ords nb := by
  intro span p hocc
  obtain ⟨rfl, hp⟩ := occupancySpan_eq_some_iff.mp hocc
  obtain ⟨q, hq⟩ := isSome_iff_exists.mp (hst (isSome_of_eq_some hp))
  rw [hcal, hspan]
  exact h b.extendedSpan q (occupancySpan_eq_some_iff.mpr ⟨rfl, hq⟩)

/-! ### Bookings within reach -/

/-- The instants of the booking are within reach, the buffer if it has one. -/
def Booking.InReach (b : Booking) : Prop :=
  Cal.InReach b.span.start ∧ Cal.InReach b.span.stop ∧
    (isZero b.bufferAfter = true ∨ Cal.InReach b.bufferAfter)
deriving Decidable

theorem Span.stored_of_inReach {a : Span} (hstart : InReach a.start) (hstop : InReach a.stop) :
    a.stored = a := by
  rw [Span.stored, unixNano_of_inReach hstart, unixNano_of_inReach hstop]

/-- What is read back covers what was written. -/
theorem Booking.InReach.extendedSpan_stored (h : b.InReach) :
    b.stored.extendedSpan = b.extendedSpan := by
  obtain ⟨hstart, hstop, hbuf⟩ := h
  unfold extendedSpan stored
  dsimp only
  rw [Span.stored_of_inReach hstart hstop]
  by_cases hz : isZero b.bufferAfter = true
  · rw [if_pos hz, if_neg fun hx => absurd hx.1 (by decide), if_neg fun hx => ?_]
    exact absurd (hz.symm.trans hx.1) (by decide)
  · rw [if_neg hz, unixNano_of_inReach (hbuf.resolve_left hz)]

/-- The extended span is valid and within reach, so that it has days. -/
theorem Booking.InReach.expands (h : b.InReach) (hspan : b.span.Valid)
    (hcal : ∃ ord, ords b.calendarID = some ord) : Expands ords b := by
  intro span p hocc
  obtain ⟨rfl, -⟩ := occupancySpan_eq_some_iff.mp hocc
  refine ⟨hcal, ?_⟩
  obtain ⟨hstart, hstop, hbuf⟩ := h
  unfold extendedSpan
  split
  · rename_i hx
    refine exists_spanDays (hspan.trans hx.2) hstart (hbuf.resolve_left ?_)
    rw [hx.1]
    decide
  · exact exists_spanDays hspan hstart hstop

theorem Source.exists_ordinals {id : String} (h : s.calendar id ≠ none) :
    ∃ ord, s.ordinals id = some ord := by
  obtain ⟨c, hc⟩ := ne_none_iff_exists'.mp h
  exact ⟨c.ordinal, by rw [ordinals, hc]; rfl⟩

/-- What the records occupy. -/
def Source.occupied (s : Source) : Key → DayBitmap := total (contrib s.ordinals) s.bookings

theorem Source.occupied_eq (hb : b ∈ s.bookings) (hk : b.key = nb.key) (k : Key) :
    s.occupied k = contrib s.ordinals b k ⊔ total (contrib s.ordinals) (s.others nb) k :=
  total_eq_sup (mem_bookings_iff hb hk)

theorem Source.occupied_updateRow (hb : b ∈ s.bookings) (hk : b.key = nb.key) (k : Key) :
    (s.updateRow nb).occupied k =
      contrib s.ordinals nb k ⊔ total (contrib s.ordinals) (s.others nb) k :=
  total_eq_sup (mem_updateRow_iff hb hk)

namespace Lifecycle

/-- The index holds what a rebuild would give. -/
def Synced (l : Lifecycle) : Prop := rebuildFrom l.src = .ok l.index

variable {l : Lifecycle}

theorem synced_iff : l.Synced ↔ (∀ r ∈ l.src.bookings, Expands l.src.ordinals r) ∧
    l.index = of l.src.ordinals l.src.occupied :=
  rebuildFrom_eq_ok_iff

/-- A day on which the index and the rebuilt one differ. -/
theorem not_synced_of_days {x : Option DayBitmap} (k : Key)
    (hreb : (rebuildFrom l.src).toOption.map (·.days k) = some x)
    (hidx : l.index.days k ≠ x) : ¬ l.Synced := by
  intro h
  rw [show rebuildFrom l.src = .ok l.index from h] at hreb
  exact hidx (some.inj hreb)

theorem synced_mk_iff : (⟨s, .of s.ordinals f⟩ : Lifecycle).Synced ↔
    (∀ r ∈ s.bookings, Expands s.ordinals r) ∧ ∀ k, f k = s.occupied k := by
  rw [synced_iff]
  exact and_congr_right fun _ => of_eq_of_iff

/-- The index knows the calendars and stores no empty day, and the records can be expanded into
days. -/
structure Indexed (l : Lifecycle) : Prop where
  index : ∃ f, l.index = .of l.src.ordinals f
  expands : ∀ r ∈ l.src.bookings, Expands l.src.ordinals r

/-- Some keys have been recomputed from the records, among them all at which the records have
changed. -/
structure Recomputes (l l' : Lifecycle) (K : Key → Prop) : Prop where
  indexed : l'.Indexed
  ordinals : l'.src.ordinals = l.src.ordinals
  inside : ∀ k, K k → l'.index.dayValue k = l'.src.occupied k
  outside : ∀ k, ¬ K k →
    l'.index.dayValue k = l.index.dayValue k ∧ l'.src.occupied k = l.src.occupied k

theorem Synced.indexed (h : l.Synced) : l.Indexed := ⟨⟨_, (synced_iff.mp h).2⟩, (synced_iff.mp h).1⟩

theorem Recomputes.synced {l' : Lifecycle} {K : Key → Prop} (hre : l.Recomputes l' K)
    (h : l.Synced) : l'.Synced := by
  obtain ⟨f, hf⟩ := hre.indexed.index
  refine synced_iff.mpr ⟨hre.indexed.expands, hf.trans (of_eq_of_iff.mpr fun k => ?_)⟩
  have hday : l'.index.dayValue k = f k := by
    rw [hf, dayValue_of]
  rw [← hday]
  by_cases hk : K k
  · exact hre.inside k hk
  · rw [(hre.outside k hk).1, (hre.outside k hk).2, (synced_iff.mp h).2, dayValue_of]

section update

variable (hexp : ∀ r ∈ s.bookings, Expands s.ordinals r) (hb : b ∈ s.bookings)
  (hk : b.key = nb.key) (hplane : b.state.occupiesPlane = some plane)
  (hnb : Expands s.ordinals nb)

/-- The lifecycle whose record has been overwritten and whose index has not been touched. -/
def updated (s : Source) (f : Key → DayBitmap) (nb : Booking) : Lifecycle :=
  ⟨s.updateRow nb, .of s.ordinals f⟩

include hexp hb hk hnb in
theorem expands_updateRow : ∀ r ∈ (s.updateRow nb).bookings, Expands s.ordinals r := by
  intro r hr
  rcases (mem_updateRow_iff hb hk r).mp hr with rfl | hr
  · exact hnb
  · exact hexp r (mem_others.mp hr).1

include hexp hb hk hplane hnb

/-- The days of the old record are recomputed from the new records. -/
theorem removeFromPlane_updated (f : Key → DayBitmap) : ∃ ord days,
    (updated s f nb).removeFromPlane b plane =
      (.ok (), { updated s f nb with
        index := .of s.ordinals fun k =>
          if InScope ord plane days k then
            total (contrib s.ordinals) (s.updateRow nb).bookings k
          else f k }) ∧
    ∀ k, InScope ord plane days k ↔ b.Touches s.ordinals k := by
  obtain ⟨⟨ord, hord⟩, days, hdays⟩ := hexp b hb _ _ (occupancySpan_eq_some_iff.mpr ⟨rfl, hplane⟩)
  refine ⟨ord, days, ?_, fun k => ⟨fun hk => ⟨ord, plane, days, hplane, hord, hdays, hk⟩, ?_⟩⟩
  · have hrem := removeFromPlane_of (f := f) (s := s.updateRow nb) plane hord hdays
      (expands_updateRow hexp hb hk hnb)
    unfold removeFromPlane updated
    rw [ordinals_updateRow] at hrem
    simp only [hrem]
  · rintro ⟨ord', plane', days', hplane', hord', hdays', hk⟩
    cases hplane.symm.trans hplane'
    cases hord.symm.trans hord'
    cases hdays.symm.trans hdays'
    exact hk

/-- Removing the old record and adding the new one gives the rebuilt index. -/
theorem synced_replace :
    ((updated s s.occupied nb).replace b plane nb.calendarID nb.bookingID).2.Synced := by
  obtain ⟨ord, days, hrem, hscope⟩ := removeFromPlane_updated hexp hb hk hplane hnb s.occupied
  unfold replace readd
  simp only [hrem]
  rw [show (updated s s.occupied nb).src.booking nb.calendarID nb.bookingID = some nb from
    booking_updateRow hb hk]
  simp only [addToPlane, addToPlane_of hnb]
  refine synced_mk_iff.mpr ⟨expands_updateRow hexp hb hk hnb, ?_⟩
  exact recompute_sup (mem_bookings_iff hb hk) (mem_updateRow_iff hb hk)
    fun k hk => contrib_of_not_touches (hexp b hb) fun ht => hk ((hscope k).mpr ht)

/-- Removing the old record is enough if the new one occupies no plane. -/
theorem recomputes_remove (hnone : nb.state.occupiesPlane = none) (f : Key → DayBitmap) :
    (⟨s, .of s.ordinals f⟩ : Lifecycle).Recomputes ((updated s f nb).removeFromPlane b plane).2
      (b.Touches s.ordinals) := by
  obtain ⟨ord, days, hrem, hscope⟩ := removeFromPlane_updated hexp hb hk hplane hnb f
  rw [hrem]
  refine ⟨⟨⟨_, rfl⟩, expands_updateRow hexp hb hk hnb⟩, rfl, fun k ht => ?_, fun k ht => ?_⟩
  · exact (dayValue_of k).trans (if_pos ((hscope k).mpr ht))
  · have hout := mt (hscope k).mp ht
    refine ⟨(dayValue_of k).trans ((if_neg hout).trans (dayValue_of k).symm), ?_⟩
    show (s.updateRow nb).occupied k = s.occupied k
    rw [occupied_updateRow hb hk, occupied_eq hb hk, contrib_of_not_touches (hexp b hb) ht,
      contrib_of_none (occupancySpan_eq_none_iff.mpr hnone)]

omit hplane in
/-- Nothing is to be done if the new record contributes what the old one did. -/
theorem synced_updated (hsame : ∀ k, contrib s.ordinals nb k = contrib s.ordinals b k) :
    (updated s s.occupied nb).Synced := by
  refine synced_mk_iff.mpr ⟨expands_updateRow hexp hb hk hnb, fun k => ?_⟩
  rw [occupied_eq hb hk, occupied_updateRow hb hk, hsame]

end update

/-! ### Transitions and moves -/

/-- Only states that occupy a plane have transitions. -/
theorem occupiesPlane_of_allowed {before after : State}
    (h : allowedTransition before after = true) : before.occupiesPlane.isSome := by
  cases before <;> first | rfl | cases h

/-- **Transitions keep the index.** -/
theorem synced_transition (h : l.Synced) (cal id : String) (after : State) :
    (l.transition cal id after).2.Synced := by
  obtain ⟨hexp, hidx⟩ := synced_iff.mp h
  rcases l.transition_cases cal id after with hsame | ⟨b, hb, hallowed, -, hfollow⟩
  · rwa [hsame]
  obtain ⟨hmem, rfl, rfl⟩ := mem_of_booking hb
  have hocc := occupiesPlane_of_allowed hallowed
  have hnb : Expands l.src.ordinals { b with state := after } :=
    (hexp b hmem).congr rfl rfl fun _ => hocc
  have hl : ({ l with src := l.src.updateRow { b with state := after } } : Lifecycle)
      = updated l.src l.src.occupied { b with state := after } := by
    rw [updated, ← hidx]
  rw [hfollow, hl]
  unfold follow
  split
  · rename_i plane plane' hplane hplane'
    split_ifs with hne
    · exact synced_replace hexp hmem rfl hplane hnb
    · refine synced_updated hexp hmem rfl hnb ?_
      apply contrib_congr
      · rfl
      · rfl
      · rw [hplane, not_not.mp hne]
        exact hplane'
  · rename_i plane hplane hnone
    refine (recomputes_remove hexp hmem (by rfl) hplane hnb hnone l.src.occupied).synced ?_
    exact synced_mk_iff.mpr ⟨hexp, fun _ => rfl⟩
  · rename_i hnone _
    rw [hnone] at hocc
    cases hocc
  · rename_i hnone _
    rw [hnone] at hocc
    cases hocc

/-- **Moves keep the index** if the booking is within reach at its destination. -/
theorem synced_move (h : l.Synced) {cal id : String} {dest : Span}
    (hreach : ∀ b ∈ l.src.booking cal id, { b with span := dest }.InReach) :
    (l.move cal id dest).2.Synced := by
  obtain ⟨hexp, hidx⟩ := synced_iff.mp h
  rcases l.move_cases cal id dest with hsame | ⟨b, plane, hb, hvalid, hcal, hplane, -, hmove⟩
  · rwa [hsame]
  obtain ⟨hmem, rfl, rfl⟩ := mem_of_booking hb
  have hr := hreach b hb
  have hl : ({ l with src := l.src.updateRow { b with span := dest } } : Lifecycle)
      = updated l.src l.src.occupied { b with span := dest } := by
    rw [updated, ← hidx]
  rw [hmove, Span.stored_of_inReach hr.1 hr.2.1, hl]
  exact synced_replace hexp hmem rfl hplane (hr.expands hvalid (exists_ordinals hcal))

/-! ### Creations -/

/-- The index after a creation that is accepted: the booking as it was passed is joined in. -/
theorem create_accepted (h : l.Synced) (hacc : l.src.Accepts (l.resolve b)) :
    (l.create b).2 = ⟨l.src.putRow (l.written b), .of l.src.ordinals fun k =>
      l.src.occupied k ⊔ contrib l.src.ordinals (l.resolve b) k⟩ := by
  obtain ⟨-, hidx⟩ := synced_iff.mp h
  obtain ⟨-, hcreate⟩ := l.create_cases b |>.resolve_left fun hno => hno.1 hacc
  rw [hcreate, hidx, addToPlane]
  by_cases hexp : Expands l.src.ordinals (l.resolve b)
  · rw [addToPlane_of hexp]
  · -- the index is left, and the booking contributes nothing
    obtain ⟨⟨e, he⟩, hbot⟩ := addToPlane_error (f := l.src.occupied) hexp
    rw [he]
    simp only [hbot, sup_bot_eq]

/-- The records under the key of a booking: the one it would replace, if there is one. -/
def replaced (l : Lifecycle) (b : Booking) : List Booking :=
  l.src.bookings.filter fun r => decide (r.key = b.key)

/-- What it takes for a creation to leave the index as a rebuild would make it, in terms of the
records and of the booking as it is passed and as it is read back. -/
structure Replaces (l : Lifecycle) (b : Booking) : Prop where
  /-- The record can be expanded into days. -/
  expands : Expands l.src.ordinals (l.written b)
  /-- What the replaced record or the booking occupied is occupied by the new records. -/
  covers : ∀ k, total (contrib l.src.ordinals) (l.replaced b) k ⊔
      contrib l.src.ordinals (l.resolve b) k
    ≤ total (contrib l.src.ordinals) (l.src.others b) k ⊔ contrib l.src.ordinals (l.written b) k
  /-- The record occupies nothing that neither the old records nor the booking occupied. -/
  covered : ∀ k, contrib l.src.ordinals (l.written b) k
    ≤ l.src.occupied k ⊔ contrib l.src.ordinals (l.resolve b) k

/-- The join of an old part, the rest and an addition is the join of a new part and the rest. -/
theorem sup_eq_iff_le {α : Type*} [SemilatticeSup α] {old rest add new : α} :
    old ⊔ rest ⊔ add = new ⊔ rest ↔ old ⊔ add ≤ rest ⊔ new ∧ new ≤ old ⊔ rest ⊔ add := by
  constructor
  · intro h
    refine ⟨?_, h ▸ le_sup_left⟩
    rw [sup_comm rest new, ← h]
    exact sup_le_sup_right le_sup_left add
  · rintro ⟨hold, hnew⟩
    apply le_antisymm
    · rw [sup_right_comm, sup_comm new rest]
      exact sup_le hold le_sup_left
    · exact sup_le hnew (le_sup_right.trans le_sup_left)

theorem synced_create_iff (h : l.Synced) (b : Booking) :
    (l.create b).2.Synced ↔ (l.src.Accepts (l.resolve b) → l.Replaces b) := by
  by_cases hacc : l.src.Accepts (l.resolve b)
  · have hmem : ∀ r, r ∈ (l.src.putRow (l.written b)).bookings ↔
        r = l.written b ∨ r ∈ l.src.others b := by
      intro r
      rw [mem_putRow, mem_others, key_written]
    have hparts : ∀ k, l.src.occupied k =
        total (contrib l.src.ordinals) (l.replaced b) k ⊔
          total (contrib l.src.ordinals) (l.src.others b) k := by
      intro k
      apply total_eq_sup_of_mem
      intro r
      simp only [replaced, others, mem_filter, decide_eq_true_eq]
      tauto
    obtain ⟨hexp, -⟩ := synced_iff.mp h
    have hexp' : (∀ r ∈ (l.src.putRow (l.written b)).bookings, Expands l.src.ordinals r) ↔
        Expands l.src.ordinals (l.written b) := by
      refine ⟨fun hall => hall _ ((hmem _).mpr (.inl rfl)), fun hw r hr => ?_⟩
      rcases (hmem r).mp hr with rfl | hr
      · exact hw
      · exact hexp r (mem_others.mp hr).1
    rw [create_accepted h hacc, ← ordinals_putRow, synced_mk_iff, imp_iff_right hacc]
    have hput : ∀ k, (l.src.putRow (l.written b)).occupied k =
        contrib l.src.ordinals (l.written b) k ⊔
          total (contrib l.src.ordinals) (l.src.others b) k := fun k => total_eq_sup hmem
    simp only [ordinals_putRow, hexp', hput, hparts, sup_eq_iff_le, forall_and]
    constructor
    · rintro ⟨hw, hcov, hnew⟩
      exact ⟨hw, hcov, fun k => hparts k ▸ hnew k⟩
    · rintro ⟨hw, hcov, hnew⟩
      exact ⟨hw, hcov, fun k => hparts k ▸ hnew k⟩
  · rcases l.create_cases b with ⟨-, hsame⟩ | ⟨hacc', -⟩
    · rw [hsame]
      exact iff_of_true h fun hacc' => absurd hacc' hacc
    · exact absurd hacc' hacc

theorem inReach_resolve (h : b.InReach) : (l.resolve b).InReach := by
  rw [resolve_eq]
  exact h

/-- Within reach, the record covers what the booking covers. -/
theorem contrib_written (h : b.InReach) (k : Key) :
    contrib ords (l.written b) k = contrib ords (l.resolve b) k := by
  apply contrib_congr
  · rfl
  · exact (inReach_resolve h).extendedSpan_stored
  · rfl

/-- Within reach, a creation is at fault for the record it replaces only: its quanta have to be
occupied by the booking or by another record. -/
theorem replaces_iff_of_inReach (hr : b.InReach) (hacc : l.src.Accepts (l.resolve b)) :
    l.Replaces b ↔ ∀ k, total (contrib l.src.ordinals) (l.replaced b) k ≤
      total (contrib l.src.ordinals) (l.src.others b) k ⊔
        contrib l.src.ordinals (l.resolve b) k := by
  have hexp : Expands l.src.ordinals (l.resolve b) :=
    (inReach_resolve hr).expands hacc.span (exists_ordinals hacc.calendar)
  constructor
  · intro h k
    have hcov := h.covers k
    rw [contrib_written hr] at hcov
    exact le_sup_left.trans hcov
  · intro h
    refine ⟨?_, fun k => ?_, fun k => ?_⟩
    · exact hexp.congr rfl (inReach_resolve hr).extendedSpan_stored id
    · rw [contrib_written hr]
      exact sup_le (h k) le_sup_right
    · rw [contrib_written hr]
      exact le_sup_right

/-- A booking within reach keeps the index if the record it replaces, if there is one, occupies
nothing. -/
theorem synced_create_dead (h : l.Synced)
    (hdead : ∀ r ∈ l.src.bookings, r.key = b.key → r.state.occupiesPlane = none)
    (hr : b.InReach) : (l.create b).2.Synced := by
  refine (synced_create_iff h b).mpr fun hacc => (replaces_iff_of_inReach hr hacc).mpr fun k => ?_
  have hbot : total (contrib l.src.ordinals) (l.replaced b) k = ⊥ := by
    refine total_eq_bot fun r hr' => ?_
    obtain ⟨hmem, hkey⟩ := mem_filter.mp hr'
    exact contrib_of_none (occupancySpan_eq_none_iff.mpr (hdead r hmem (of_decide_eq_true hkey))) k
  rw [hbot]
  exact bot_le

/-- A new booking within reach keeps the index. -/
theorem synced_create_new (h : l.Synced) (hnew : ∀ r ∈ l.src.bookings, r.key ≠ b.key)
    (hr : b.InReach) : (l.create b).2.Synced :=
  synced_create_dead h (fun r hr hkey => absurd hkey (hnew r hr)) hr

/-- **Creation and the rebuilt index.**  In a state whose index is what a rebuild gives, a
creation that is accepted leaves it so iff `Replaces` holds.  Within reach this says that every
quantum of a replaced record is occupied by another record or by the booking. -/
theorem create_rebuilt_iff (l : Lifecycle) (h : l.Synced) (b : Booking) :
    ((l.create b).2.Synced ↔ (l.src.Accepts (l.resolve b) → l.Replaces b)) ∧
      (b.InReach → l.src.Accepts (l.resolve b) →
        (l.Replaces b ↔ ∀ k, total (contrib l.src.ordinals) (l.replaced b) k ≤
          total (contrib l.src.ordinals) (l.src.others b) k ⊔
            contrib l.src.ordinals (l.resolve b) k)) :=
  ⟨synced_create_iff h b, replaces_iff_of_inReach⟩

/-- The tables of a tenant with one calendar. -/
def roomSource : Source :=
  { empty with
    calendars := [⟨"room", 1, .binding, .binding⟩]
    nextOrd := 1
    uniqueCalendars := nodup_singleton _
    uniqueOrdinals := nodup_singleton _
    ordinals_le := by simp }

/-- The lifecycle over them, with its empty index. -/
def oneRoom : Lifecycle := ⟨roomSource, .of roomSource.ordinals fun _ => ⊥⟩

theorem synced_oneRoom : oneRoom.Synced :=
  synced_mk_iff.mpr ⟨fun _ hr => (nomatch hr), fun _ => total_nil.symm⟩

/-- Hours of January 2, 1970. -/
def hours (first last : Int) : Span :=
  ⟨86400000000000 + first * 3600000000000, 86400000000000 + last * 3600000000000⟩

/-- A proposal, as `handleCalPropose` passes it on. -/
def proposal (id : String) (span : Span) (bufferAfter : Int) : Booking :=
  ⟨id, "room", .proposed, span, .exclusive, 7, bufferAfter⟩

/-- The day of the proposals in the index. -/
def proposedDay : Key := ⟨1, .proposed, 86400000000000⟩

theorem spanDays_hours_nine : spanDays (hours 9 10) =
    .ok [⟨86400000000000, (⊥ : DayBitmap).setRange 108 120⟩] := by
  decide +kernel

theorem spanDays_hours_nine_eleven : spanDays (hours 9 11) =
    .ok [⟨86400000000000, (⊥ : DayBitmap).setRange 108 132⟩] := by
  decide +kernel

/-- A proposal made again for a longer time. -/
theorem create_rebuilt_longer :
    ((oneRoom.create (proposal "a" (hours 9 10) 0)).2.create
      (proposal "a" (hours 9 11) 0)).2.Synced := by
  have hsync : (oneRoom.create (proposal "a" (hours 9 10) 0)).2.Synced :=
    synced_create_new synced_oneRoom (fun r hr => (nomatch hr)) (by decide)
  have hiff := create_rebuilt_iff _ hsync (proposal "a" (hours 9 11) 0)
  refine hiff.1.mpr fun hacc => (hiff.2 (by decide) hacc).mpr fun k => ?_
  refine le_sup_of_le_right ?_
  rw [show Lifecycle.replaced _ _ = [proposal "a" (hours 9 10) 0] by decide +kernel, total_cons,
    total_nil, sup_bot_eq,
    contrib_of_some (show (proposal "a" (hours 9 10) 0).occupancySpan
      = some (hours 9 10, .proposed) by decide),
    contrib_of_some (show (Lifecycle.resolve _ (proposal "a" (hours 9 11) 0)).occupancySpan
      = some (hours 9 11, .proposed) by decide)]
  split
  · rename_i hk
    refine le_of_le_of_eq ?_ (if_pos hk).symm
    rw [bitsOf_ok spanDays_hours_nine, bitsOf_ok spanDays_hours_nine_eleven]
    show (if 86400000000000 = k.dayNanos then _ else _) ⊔ ⊥
      ≤ (if 86400000000000 = k.dayNanos then _ else _) ⊔ ⊥
    split
    · decide +kernel
    · exact le_rfl
  · exact bot_le

/-- The same proposal at another hour: its first hour stays occupied in the index and is not
in a rebuild. -/
theorem create_again_leaves_quanta : let l := (oneRoom.create (proposal "a" (hours 9 10) 0)).2
    let l' := (l.create (proposal "a" (hours 14 15) 0)).2
    l.Synced ∧ ¬ l'.Synced ∧
      l'.index.days proposedDay =
        some ((⊥ : DayBitmap).setRange 108 120 ⊔ (⊥ : DayBitmap).setRange 168 180) ∧
      (rebuildFrom l'.src).toOption.map (·.days proposedDay) =
        some (some ((⊥ : DayBitmap).setRange 168 180)) := by
  intro l l'
  have hidx : l'.index.days proposedDay =
      some ((⊥ : DayBitmap).setRange 108 120 ⊔ (⊥ : DayBitmap).setRange 168 180) := by
    decide +kernel
  have hreb : (rebuildFrom l'.src).toOption.map (·.days proposedDay) =
      some (some ((⊥ : DayBitmap).setRange 168 180)) := by
    decide +kernel
  refine ⟨synced_create_new synced_oneRoom (fun r hr => (nomatch hr)) (by decide), ?_, hidx, hreb⟩
  apply not_synced_of_days proposedDay hreb
  decide +kernel

/-! ### Runs -/

end Lifecycle

/-- An operation of the lifecycle. -/
inductive LifecycleCmd where
  | create (b : Booking)
  | confirm (cal id : String)
  | decline (cal id : String)
  | complete (cal id : String)
  | cancel (cal id : String)
  | markMissed (cal id : String)
  | move (cal id : String) (dest : Span)

namespace Lifecycle

section

variable (l : Lifecycle)

/-- The lifecycle after an operation. -/
def step : LifecycleCmd → Lifecycle
  | .create b => (l.create b).2
  | .confirm cal id => (l.confirm cal id).2
  | .decline cal id => (l.decline cal id).2
  | .complete cal id => (l.complete cal id).2
  | .cancel cal id => (l.cancel cal id).2
  | .markMissed cal id => (l.markMissed cal id).2
  | .move cal id dest => (l.move cal id dest).2

/-- A creation has a booking id that is not yet on the calendar. -/
def NewID : LifecycleCmd → Prop
  | .create b => ∀ r ∈ l.src.bookings, r.key ≠ b.key
  | _ => True

/-- A creation is of a booking within reach, and a move brings its booking to a place within
reach. -/
def Reaches : LifecycleCmd → Prop
  | .create b => b.InReach
  | .move cal id dest => ∀ b ∈ l.src.booking cal id, { b with span := dest }.InReach
  | _ => True

instance : DecidablePred l.NewID
  | .create _ => inferInstanceAs (Decidable (∀ _ ∈ _, _))
  | .confirm .. | .decline .. | .complete .. | .cancel .. | .markMissed .. | .move .. =>
    .isTrue trivial

instance : DecidablePred l.Reaches
  | .create _ => inferInstanceAs (Decidable (Booking.InReach _))
  | .move .. => inferInstanceAs (Decidable (∀ _ ∈ _, _))
  | .confirm .. | .decline .. | .complete .. | .cancel .. | .markMissed .. =>
    .isTrue trivial

end

theorem synced_step (l : Lifecycle) (c : LifecycleCmd) (h : l.Synced)
    (hc : l.NewID c ∧ l.Reaches c) : (l.step c).Synced := by
  cases c with
  | create b => exact synced_create_new h hc.1 hc.2
  | move cal id dest => exact synced_move h hc.2
  | confirm | decline | complete | cancel | markMissed => exact synced_transition h ..

/-- **The index stays what a rebuild gives.**  From a state in which it is, over every run of
creations with new ids, transitions and moves, as long as the bookings stay within reach. -/
theorem index_stays_rebuilt (l : Lifecycle) (h : l.Synced) (cmds : List LifecycleCmd)
    (hnew : Along step NewID l cmds) (hreach : Along step Reaches l cmds) :
    Along step (fun l c => (l.step c).Synced) l cmds :=
  along_of_invariant synced_step synced_step h (hnew.and hreach)

/-- Two overlapping bookings, a confirmation, a move to a span before the buffer's end and a
cancellation. -/
def overlappingRun : List LifecycleCmd :=
  [.create (proposal "a" (hours 9 12) 0), .create (proposal "b" (hours 11 30) 205200000000000),
   .confirm "room" "a", .move "room" "b" (hours 1 2), .cancel "room" "a"]

theorem index_stays_rebuilt_overlapping :
    Along step (fun l c => (l.step c).Synced) oneRoom overlappingRun :=
  index_stays_rebuilt oneRoom synced_oneRoom overlappingRun (by decide +kernel) (by decide +kernel)

/-- A buffer until the year 2500.  As it was passed it makes the span end before it begins, in
int64 nanoseconds, and sets no quantum; read back it lies in 1915 and the rebuild sets those
of the span. -/
theorem far_buffer_not_in_index :
    let l := oneRoom.step (.create (proposal "a" (hours 9 10) 16725225600000000000))
    oneRoom.NewID (.create (proposal "a" (hours 9 10) 16725225600000000000)) ∧ ¬ l.Synced ∧
      l.index.days proposedDay = none ∧
      (rebuildFrom l.src).toOption.map (·.days proposedDay) =
        some (some ((⊥ : DayBitmap).setRange 108 120)) := by
  intro l
  have hidx : l.index.days proposedDay = none := by
    decide +kernel
  have hreb : (rebuildFrom l.src).toOption.map (·.days proposedDay) =
      some (some ((⊥ : DayBitmap).setRange 108 120)) := by
    decide +kernel
  refine ⟨fun _ hr => (nomatch hr), ?_, hidx, hreb⟩
  apply not_synced_of_days proposedDay hreb
  rw [hidx]
  exact fun h => nomatch h

end Lifecycle

end Xolu.Cal
