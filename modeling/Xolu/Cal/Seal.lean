/-
# Sealed days (pkg/cal/seal.go)

The `Sealer` keeps a frontier that only advances; the days that end at or before it are
sealed.  Its operations look, under one lock with `AdvanceTo`, whether a span touches a sealed
day, and only then call the lifecycle.  The span they look at is the one of a booking they have
read before they took the lock, and it is the span without the buffer.

`Sealing` is the sealer with the calls that have read their booking and wait for the lock.
An operation of the lifecycle changes a day only if a record that it writes or replaces touches
it (`sameOn_transition`, `sameOn_move`, `sameOn_create`).  So a sealed day is never changed in a
run in which the sealed days of those records are days of the spans that are looked at
(`sealed_days_kept`).
-/
import Xolu.Cal.Exclusive

namespace Xolu.Cal

open List Num64 Derived Runs Lifecycle Source

/-! ### The days of a booking -/

/-- The days a span touches; a span that `SpanDays` refuses touches none. -/
def Span.dayStarts (s : Span) : List Int :=
  match spanDays s with
  | .ok days => days.map DayOccupancy.dayNanos
  | .error _ => []

/-- The days a booking occupies. -/
def Booking.dayStarts (b : Booking) : List Int :=
  match b.occupancySpan with
  | none => []
  | some (span, _) => span.dayStarts

variable {b : Booking}

theorem Booking.dayStarts_of_live (h : b.state.occupiesPlane.isSome) :
    b.dayStarts = b.extendedSpan.dayStarts := by
  obtain ⟨plane, hplane⟩ := Option.isSome_iff_exists.mp h
  rw [dayStarts, occupancySpan_eq_some_iff.mpr ⟨rfl, hplane⟩]

theorem Booking.dayStarts_of_not_live (h : b.state.occupiesPlane = none) : b.dayStarts = [] := by
  rw [dayStarts, occupancySpan_eq_none_iff.mpr h]

theorem contrib_eq_bot {ords : String → Option Nat} {k : Key}
    (h : k.dayNanos ∉ b.dayStarts) : contrib ords b k = ⊥ := by
  unfold Booking.dayStarts at h
  rcases hocc : b.occupancySpan with - | ⟨span, plane⟩
  · exact contrib_of_none hocc k
  · rw [hocc] at h
    dsimp only at h
    rw [contrib_of_some hocc]
    split
    · unfold bitsOf
      unfold Span.dayStarts at h
      split
      · rename_i days hdays
        rw [hdays] at h
        exact bitsAt_of_not_mem h
      · rfl
    · rfl

theorem Span.inRange_of_mem_dayStarts {s : Span} {day : Int} (h : day ∈ s.dayStarts) :
    InRange day := by
  unfold dayStarts at h
  split at h
  · rename_i days hdays
    obtain ⟨-, ds, hds, rfl⟩ := spanDays_eq_ok_iff.mp hdays
    obtain ⟨o, ho, rfl⟩ := mem_map.mp h
    obtain ⟨day, hday, rfl⟩ := mem_map.mp (mem_filter.mp ho).1
    exact (days_spec hds day hday).2
  · cases h

/-! ### What an operation leaves of a day -/

namespace Lifecycle

variable {l : Lifecycle} {b : Booking} {cal id : String} {k : Key}

/-- A day has the bits it had, in the index and by the records. -/
def SameOn (l l' : Lifecycle) (k : Key) : Prop :=
  l'.index.days k = l.index.days k ∧
    total (contrib l'.src.ordinals) l'.src.bookings k =
      total (contrib l.src.ordinals) l.src.bookings k

theorem SameOn.refl (l : Lifecycle) (k : Key) : l.SameOn l k := ⟨rfl, rfl⟩

theorem SameOn.trans {l₁ l₂ l₃ : Lifecycle} (h : l₁.SameOn l₂ k) (h' : l₂.SameOn l₃ k) :
    l₁.SameOn l₃ k :=
  ⟨h'.1.trans h.1, h'.2.trans h.2⟩

theorem days_addToPlane (h : k.dayNanos ∉ b.dayStarts) :
    (l.addToPlane b).2.index.days k = l.index.days k := by
  unfold addToPlane
  split
  · rfl
  rename_i x hx
  unfold IndexStore.addToPlane IndexStore.applyBooking at hx
  unfold Booking.dayStarts at h
  rcases hocc : b.occupancySpan with - | ⟨span, plane⟩
  · rw [hocc] at hx
    cases hx
    rfl
  simp only [hocc] at hx h
  split at hx
  · cases hx
  split at hx
  · cases hx
  rename_i ord _ days hdays
  cases hx
  refine batch_of_ne fun d hd hkey => h ?_
  rw [Span.dayStarts, hdays]
  exact mem_map.mpr ⟨d, hd, congrArg Key.dayNanos hkey⟩

theorem days_removeFromPlane {plane : Plane} (h : k.dayNanos ∉ b.extendedSpan.dayStarts) :
    (l.removeFromPlane b plane).2.index.days k = l.index.days k := by
  unfold removeFromPlane
  split
  · rfl
  rename_i x hx
  unfold IndexStore.removeFromPlane at hx
  split at hx
  · cases hx
  split at hx
  · cases hx
  rename_i ord _ days hdays
  unfold IndexStore.recomputeDays at hx
  split at hx
  · cases hx
  cases hx
  refine batch_of_ne fun day hday hkey => h ?_
  rw [Span.dayStarts, hdays, ← congrArg Key.dayNanos hkey]
  exact hday

theorem days_readd (h : ∀ nb, l.src.booking cal id = some nb → k.dayNanos ∉ nb.dayStarts) :
    (l.readd cal id).2.index.days k = l.index.days k := by
  unfold readd
  split
  · rfl
  · exact days_addToPlane (h _ ‹_›)

theorem days_replace {plane : Plane} (hb : k.dayNanos ∉ b.extendedSpan.dayStarts)
    (h : ∀ nb, l.src.booking cal id = some nb → k.dayNanos ∉ nb.dayStarts) :
    (l.replace b plane cal id).2.index.days k = l.index.days k := by
  have hdays := @days_removeFromPlane l b k plane hb
  have hsrc := @src_removeFromPlane l b plane
  unfold replace
  split <;> rename_i heq <;> rw [heq] at hdays hsrc
  · exact hdays
  · exact (days_readd (hsrc ▸ h)).trans hdays

/-- The record written over, and the index replaced or not. -/
theorem sameOn_updateRow (nb : Booking) (hb : l.src.booking cal id = some b)
    (hkey : b.key = nb.key) (hold : k.dayNanos ∉ b.dayStarts) (hnew : k.dayNanos ∉ nb.dayStarts)
    {l' : Lifecycle} (hsrc : l'.src = l.src.updateRow nb)
    (hidx : l'.index.days k = l.index.days k) : l.SameOn l' k := by
  refine ⟨hidx, ?_⟩
  rw [hsrc, ordinals_updateRow]
  refine total_congr_of_ne_bot fun r hr => ?_
  have hmem := (mem_of_booking hb).1
  have hne : r ≠ nb ∧ r ≠ b :=
    ⟨fun e => hr (e ▸ contrib_eq_bot hnew), fun e => hr (e ▸ contrib_eq_bot hold)⟩
  rw [mem_updateRow_iff hmem hkey, mem_bookings_iff hmem hkey, or_iff_right hne.1,
    or_iff_right hne.2]

/-- What is read back is the row. -/
theorem dayStarts_updateRow (nb : Booking) (hmem : b ∈ l.src.bookings) (hkey : b.key = nb.key)
    (hnew : k.dayNanos ∉ nb.dayStarts) (r : Booking)
    (hr : (l.src.updateRow nb).booking nb.calendarID nb.bookingID = some r) :
    k.dayNanos ∉ r.dayStarts := by
  rw [booking_updateRow hmem hkey] at hr
  cases hr
  exact hnew

/-- A transition changes days of the booking only. -/
theorem sameOn_transition {after : State}
    (h : ∀ b, l.src.booking cal id = some b → allowedTransition b.state after = true →
      k.dayNanos ∉ b.dayStarts) : l.SameOn (l.transition cal id after).2 k := by
  rcases l.transition_cases cal id after with hsame | ⟨b, hb, hallowed, -, hfollow⟩
  · rw [hsame]
    exact .refl l k
  obtain ⟨hmem, rfl, rfl⟩ := mem_of_booking hb
  have hold := h b hb hallowed
  have hspan : k.dayNanos ∉ b.extendedSpan.dayStarts :=
    Booking.dayStarts_of_live (occupiesPlane_of_allowed hallowed) ▸ hold
  have hnew : k.dayNanos ∉ ({ b with state := after } : Booking).dayStarts := by
    rcases hplane : after.occupiesPlane with - | plane
    · rw [Booking.dayStarts_of_not_live hplane]
      exact not_mem_nil
    · rw [Booking.dayStarts_of_live (Option.isSome_of_eq_some hplane)]
      exact hspan
  rw [hfollow]
  have hread := dayStarts_updateRow { b with state := after } hmem rfl hnew
  refine sameOn_updateRow { b with state := after } hb rfl hold hnew src_follow ?_
  unfold follow
  split
  · split
    · exact days_replace hspan hread
    · rfl
  · exact days_removeFromPlane hspan
  · exact days_readd hread
  · rfl

/-- A move changes days of the booking, where it was and where it goes to. -/
theorem sameOn_move {dest : Span}
    (h : ∀ b, l.src.booking cal id = some b → k.dayNanos ∉ b.dayStarts ∧
      k.dayNanos ∉ ({ b with span := dest.stored } : Booking).dayStarts) :
    l.SameOn (l.move cal id dest).2 k := by
  rcases l.move_cases cal id dest with hsame | ⟨b, plane, hb, -, -, hplane, -, hmove⟩
  · rw [hsame]
    exact .refl l k
  obtain ⟨hmem, rfl, rfl⟩ := mem_of_booking hb
  obtain ⟨hold, hnew⟩ := h b hb
  rw [hmove]
  refine sameOn_updateRow { b with span := dest.stored } hb rfl hold hnew src_replace
    (days_replace ?_ (dayStarts_updateRow { b with span := dest.stored } hmem rfl hnew))
  rw [← Booking.dayStarts_of_live (Option.isSome_of_eq_some hplane)]
  exact hold

/-- A creation changes days of the booking, as it is passed and as it is read back, and of the
record it replaces. -/
theorem sameOn_create (h : l.src.Accepts (l.resolve b) → k.dayNanos ∉ (l.resolve b).dayStarts ∧
      k.dayNanos ∉ (l.written b).dayStarts ∧ ∀ r ∈ l.replaced b, k.dayNanos ∉ r.dayStarts) :
    l.SameOn (l.create b).2 k := by
  rcases l.create_cases b with ⟨-, hsame⟩ | ⟨hacc, hcreate⟩
  · rw [hsame]
    exact .refl l k
  obtain ⟨hpassed, hwritten, hreplaced⟩ := h hacc
  rw [hcreate]
  refine ⟨days_addToPlane hpassed, ?_⟩
  rw [src_addToPlane, ordinals_putRow]
  refine total_congr_of_ne_bot fun r hr => ?_
  have hne : r ≠ l.written b := fun e => hr (e ▸ contrib_eq_bot hwritten)
  rw [mem_putRow, or_iff_right hne, key_written]
  refine and_iff_left_of_imp fun hmem hkey => hr (contrib_eq_bot (hreplaced r ?_))
  exact mem_filter.mpr ⟨hmem, decide_eq_true hkey⟩

end Lifecycle

/-! ### The sealer -/

structure Sealer where
  frontier : Int
  lc : Lifecycle

/-- How a guarded operation fails. -/
inductive SealError where
  | unknownBooking (calendar booking : String)
  /-- `SealedError`. -/
  | sealedDay (span : Span) (frontier : Int)
  | lifecycle (e : CalError)
deriving DecidableEq, Repr

namespace Sealer

def newSealer (lc : Lifecycle) : Sealer := ⟨Instant.zeroTime, lc⟩

def dayIsSealedLocked (s : Sealer) (dayNanos : Int) : Bool :=
  if isZero s.frontier then false
  else
    let dayEnd := wrap (dayNanos + nsPerDay)
    decide (dayEnd ≤ unixNano s.frontier)

def spanTouchesSealedLocked (s : Sealer) (span : Span) : Except CalError Bool :=
  match spanDays span with
  | .error e => .error (.spanDays e)
  | .ok days => .ok (days.any fun d => s.dayIsSealedLocked d.dayNanos)

def advanceTo (s : Sealer) (now : Int) : Sealer :=
  if s.frontier < now then { s with frontier := now } else s

/-- The spans are looked at in order; the first that touches a sealed day, or has no days,
refuses. -/
def refusal (s : Sealer) : List Span → Option SealError
  | [] => none
  | span :: spans =>
    match s.spanTouchesSealedLocked span with
    | .error e => some (.lifecycle e)
    | .ok true => some (.sealedDay span s.frontier)
    | .ok false => s.refusal spans

/-- An operation of the lifecycle under the lock, if none of the spans refuses. -/
def guarded {α : Type} (s : Sealer) (spans : List Span)
    (fn : Lifecycle → Except CalError α × Lifecycle) : Except SealError α × Sealer :=
  match s.refusal spans with
  | some e => (.error e, s)
  | none => ((fn s.lc).1.mapError .lifecycle, { s with lc := (fn s.lc).2 })

def guardMutation {α : Type} (s : Sealer) (span : Span)
    (fn : Lifecycle → Except CalError α × Lifecycle) : Except SealError α × Sealer :=
  s.guarded [span] fn

section

variable (s : Sealer)

variable (b : Booking)

/-- `ConfirmSealed` once it has read the booking. -/
def confirmRead (cal id : String) : Except SealError Unit × Sealer :=
  s.guardMutation b.span fun lc => lc.confirm cal id

/-- `CancelSealed` once it has read the booking. -/
def cancelRead (cal id : String) : Except SealError Unit × Sealer :=
  s.guardMutation b.span fun lc => lc.cancel cal id

/-- `MoveSealed` once it has read the booking. -/
def moveRead (cal id : String) (dest : Span) : Except SealError Lifecycle.MoveResult × Sealer :=
  s.guarded [b.span, dest] fun lc => lc.move cal id dest

def createSealed : Except SealError Booking × Sealer := s.guardMutation b.span fun lc => lc.create b

/-- The day has ended at the frontier. -/
def Sealed (day : Int) : Prop := isZero s.frontier = false ∧ day + nsPerDay ≤ s.frontier
deriving Decidable

end

variable {s : Sealer} {spans : List Span} {day : Int}

/-- The test is right about the days of a span, for a frontier within int64. -/
theorem dayIsSealedLocked_of_sealed (hf : InRange s.frontier) (hday : InRange day)
    (h : s.Sealed day) : s.dayIsSealedLocked day = true := by
  have hend : wrap (day + nsPerDay) = day + nsPerDay := by
    apply wrap_of_inRange
    have := h.2
    unfold InRange nsPerDay at *
    omega
  rw [dayIsSealedLocked, h.1, hend, unixNano, wrap_of_inRange hf]
  exact decide_eq_true h.2

/-- If no span refuses, none touches a sealed day. -/
theorem not_sealed_of_refusal (hf : InRange s.frontier) (h : s.refusal spans = none) {span : Span}
    (hspan : span ∈ spans) (hday : day ∈ span.dayStarts) : ¬ s.Sealed day := by
  induction spans with
  | nil => cases hspan
  | cons first spans ih =>
    unfold refusal at h
    split at h
    · cases h
    · cases h
    rename_i htouches
    rcases mem_cons.mp hspan with rfl | hspan
    · intro hsealed
      have hin := Span.inRange_of_mem_dayStarts hday
      unfold Span.dayStarts at hday
      unfold spanTouchesSealedLocked at htouches
      split at hday
      · rename_i days hdays
        rw [hdays] at htouches
        obtain ⟨o, ho, rfl⟩ := mem_map.mp hday
        have hnone := any_eq_false.mp (Except.ok.inj htouches) o ho
        exact hnone (dayIsSealedLocked_of_sealed hf hin hsealed)
      · cases hday
    · exact ih h hspan

/-- The sealed days of the booking are days of the spans. -/
def Covers (s : Sealer) (spans : List Span) (b : Booking) : Prop :=
  ∀ day ∈ b.dayStarts, s.Sealed day → ∃ span ∈ spans, day ∈ span.dayStarts
deriving Decidable

/-- What is covered touches no sealed day once the spans have been looked at. -/
theorem Covers.not_mem {b : Booking} (h : s.Covers spans b) (hf : InRange s.frontier)
    (hr : s.refusal spans = none) (hday : s.Sealed day) : day ∉ b.dayStarts := by
  intro hmem
  obtain ⟨span, hspan, hin⟩ := h day hmem hday
  exact not_sealed_of_refusal hf hr hspan hin hday

/-- A guarded operation keeps a day if the operation does once no span refuses. -/
theorem sameOn_guarded {α : Type} {fn : Lifecycle → Except CalError α × Lifecycle} {k : Key}
    (h : s.refusal spans = none → s.lc.SameOn (fn s.lc).2 k) :
    s.lc.SameOn (s.guarded spans fn).2.lc k := by
  unfold guarded
  split
  · exact .refl _ _
  · exact h ‹_›

theorem frontier_guarded {α : Type} {fn : Lifecycle → Except CalError α × Lifecycle} :
    (s.guarded spans fn).2.frontier = s.frontier := by
  unfold guarded
  split <;> rfl

end Sealer

/-! ### Calls in any order -/

/-- The operations that read their booking first. -/
inductive SealedOp where
  | confirm
  | cancel
  | move (dest : Span)
deriving DecidableEq, Repr

/-- A call that has read its booking and waits for the lock. -/
structure Waiting where
  calendarID : String
  bookingID : String
  op : SealedOp
  read : Booking
deriving DecidableEq, Repr

/-- The locked section of the call. -/
def Waiting.locked (w : Waiting) (s : Sealer) : Sealer :=
  match w.op with
  | .confirm => (s.confirmRead w.read w.calendarID w.bookingID).2
  | .cancel => (s.cancelRead w.read w.calendarID w.bookingID).2
  | .move dest => (s.moveRead w.read w.calendarID w.bookingID dest).2

/-- The spans the call looks at. -/
def Waiting.spans (w : Waiting) : List Span :=
  match w.op with
  | .confirm | .cancel => [w.read.span]
  | .move dest => [w.read.span, dest]

/-- The records the call would change, given the one that is there. -/
def Waiting.changes (w : Waiting) (b : Booking) : List Booking :=
  match w.op with
  | .confirm => if allowedTransition b.state .binding then [b] else []
  | .cancel => if allowedTransition b.state .cancelled then [b] else []
  | .move dest => [b, { b with span := dest.stored }]

/-- The sealer and the calls that wait for its lock. -/
structure Sealing where
  sealer : Sealer
  waiting : List Waiting

/-- The steps: `AdvanceTo`, `CreateSealed`, the read of a call and the locked section of the
`i`-th that waits. -/
inductive SealCmd where
  | advanceTo (now : Int)
  | create (b : Booking)
  | read (cal id : String) (op : SealedOp)
  | locked (i : Nat)
deriving DecidableEq, Repr

namespace Sealing

/-- One step.  A call that does not find its booking returns at once. -/
def step (s : Sealing) : SealCmd → Sealing
  | .advanceTo now => { s with sealer := s.sealer.advanceTo now }
  | .create b => { s with sealer := (s.sealer.createSealed b).2 }
  | .read cal id op =>
    match s.sealer.lc.src.booking cal id with
    | none => s
    | some b => { s with waiting := s.waiting ++ [⟨cal, id, op, b⟩] }
  | .locked i =>
    match s.waiting[i]? with
    | none => s
    | some w => ⟨w.locked s.sealer, s.waiting.eraseIdx i⟩

/-- The condition: the frontier is advanced to instants that int64 nanoseconds hold and that do
not read as unset; and every sealed day that an operation would change is a day of the spans it
looks at. -/
def LooksAtAll (s : Sealing) : SealCmd → Prop
  | .advanceTo now => InRange now ∧ isZero now = false
  | .create b =>
    s.sealer.lc.src.Accepts (s.sealer.lc.resolve b) →
      ∀ r ∈ s.sealer.lc.resolve b :: s.sealer.lc.written b :: s.sealer.lc.replaced b,
        s.sealer.Covers [b.span] r
  | .read .. => True
  | .locked i => ∀ w ∈ s.waiting[i]?, ∀ b ∈ s.sealer.lc.src.booking w.calendarID w.bookingID,
      ∀ r ∈ w.changes b, s.sealer.Covers w.spans r

/-- Nothing is sealed, or the frontier is in int64. -/
def Sound (s : Sealing) : Prop :=
  s.sealer.frontier = Instant.zeroTime ∨
    InRange s.sealer.frontier ∧ isZero s.sealer.frontier = false

instance (s : Sealing) : DecidablePred s.LooksAtAll
  | .advanceTo _ => inferInstanceAs (Decidable (_ ∧ _))
  | .create _ => inferInstanceAs (Decidable (_ → ∀ _ ∈ _, _))
  | .read .. => .isTrue trivial
  | .locked _ => inferInstanceAs (Decidable (∀ _ ∈ _, ∀ _ ∈ _, ∀ _ ∈ _, _))

variable {s : Sealing} {k : Key}

/-- A sealed day has a frontier in int64 behind it. -/
theorem Sound.inRange (h : s.Sound) {day : Int} (hday : s.sealer.Sealed day) :
    InRange s.sealer.frontier := by
  rcases h with hzero | ⟨hin, -⟩
  · have hset := hday.1
    rw [hzero] at hset
    cases hset
  · exact hin

theorem frontier_locked (w : Waiting) (s : Sealer) : (w.locked s).frontier = s.frontier := by
  unfold Waiting.locked
  split <;> exact Sealer.frontier_guarded

theorem mem_changed {b : Booking} {after : State} (h : allowedTransition b.state after = true) :
    b ∈ if allowedTransition b.state after then [b] else [] := by
  rw [if_pos h]
  exact mem_singleton_self b

/-- **The locked section** keeps a sealed day if all it would change is looked at. -/
theorem sameOn_locked {s : Sealer} {w : Waiting} (hf : InRange s.frontier)
    (hk : s.Sealed k.dayNanos)
    (h : ∀ b ∈ s.lc.src.booking w.calendarID w.bookingID, ∀ r ∈ w.changes b, s.Covers w.spans r) :
    s.lc.SameOn (w.locked s).lc k := by
  rcases w with ⟨cal, id, op, read⟩
  cases op with
  | confirm | cancel =>
    refine Sealer.sameOn_guarded fun hr => sameOn_transition fun b hb hallowed => ?_
    exact (h b hb b (mem_changed hallowed)).not_mem hf hr hk
  | move dest =>
    refine Sealer.sameOn_guarded fun hr => sameOn_move fun b hb => ⟨?_, ?_⟩
    · exact (h b hb _ mem_cons_self).not_mem hf hr hk
    · exact (h b hb _ (mem_cons_of_mem _ (mem_singleton_self _))).not_mem hf hr hk

/-- **One step** keeps the bits of a sealed day, and the day stays sealed. -/
theorem step_keeps (h : s.Sound) {c : SealCmd} (hc : s.LooksAtAll c)
    (hk : s.sealer.Sealed k.dayNanos) :
    (s.step c).sealer.Sealed k.dayNanos ∧ s.sealer.lc.SameOn (s.step c).sealer.lc k := by
  have hf := h.inRange hk
  cases c with
  | advanceTo now =>
    show Sealer.Sealed (s.sealer.advanceTo now) k.dayNanos ∧
      s.sealer.lc.SameOn (s.sealer.advanceTo now).lc k
    unfold Sealer.advanceTo
    split
    · rename_i hlt
      exact ⟨⟨hc.2, hk.2.trans hlt.le⟩, .refl _ _⟩
    · exact ⟨hk, .refl _ _⟩
  | create b =>
    refine ⟨⟨?_, ?_⟩, Sealer.sameOn_guarded fun hr => sameOn_create fun hacc => ?_⟩
    · exact (congrArg isZero Sealer.frontier_guarded).trans hk.1
    · exact hk.2.trans_eq Sealer.frontier_guarded.symm
    · have hcov := hc hacc
      simp only [forall_mem_cons] at hcov
      exact ⟨hcov.1.not_mem hf hr hk, hcov.2.1.not_mem hf hr hk,
        fun r hmem => (hcov.2.2 r hmem).not_mem hf hr hk⟩
  | read cal id op =>
    simp only [step]
    split <;> exact ⟨hk, .refl _ _⟩
  | locked i =>
    simp only [step]
    split
    · exact ⟨hk, .refl _ _⟩
    · rename_i w hw
      refine ⟨⟨?_, ?_⟩, sameOn_locked hf hk (hc w hw)⟩
      · rw [frontier_locked]
        exact hk.1
      · rw [frontier_locked]
        exact hk.2

theorem sound_step (s : Sealing) (c : SealCmd) (h : s.Sound) (hc : s.LooksAtAll c) :
    (s.step c).Sound := by
  cases c with
  | advanceTo now =>
    show Sound { s with sealer := s.sealer.advanceTo now }
    unfold Sealer.advanceTo
    split
    · exact .inr hc
    · exact h
  | create b =>
    have hf : (s.step (.create b)).sealer.frontier = s.sealer.frontier := Sealer.frontier_guarded
    unfold Sound
    rw [hf]
    exact h
  | read cal id op =>
    simp only [step]
    split <;> exact h
  | locked i =>
    simp only [step]
    split
    · exact h
    · unfold Sound
      rw [frontier_locked]
      exact h

/-- **Sealed days are immutable.**  In every run of `AdvanceTo` and the guarded operations, each
call reading its booking in one step and taking the lock in a later one, a day that has been
sealed at some point stays sealed and keeps its bits on either plane, as long as the operations
look at every sealed day they would change. -/
theorem sealed_days_kept (lc : Lifecycle) (before after : List SealCmd)
    (h : Along step LooksAtAll ⟨.newSealer lc, []⟩ (before ++ after)) (k : Key)
    (hk : (run step ⟨.newSealer lc, []⟩ before).sealer.Sealed k.dayNanos) :
    (run step ⟨.newSealer lc, []⟩ (before ++ after)).sealer.Sealed k.dayNanos ∧
      (run step ⟨.newSealer lc, []⟩ before).sealer.lc.SameOn
        (run step ⟨.newSealer lc, []⟩ (before ++ after)).sealer.lc k := by
  obtain ⟨hbefore, hafter⟩ := along_append.mp h
  have hsound : Sound (run step ⟨.newSealer lc, []⟩ before) :=
    invariant_of_along sound_step (.inl rfl) hbefore
  rw [run_append]
  generalize run step ⟨.newSealer lc, []⟩ before = s₀ at hk hafter hsound
  -- the invariant: the day is sealed and has the bits it had when it was
  suffices hinv : (run step s₀ after).Sound ∧ (run step s₀ after).sealer.Sealed k.dayNanos ∧
      s₀.sealer.lc.SameOn (run step s₀ after).sealer.lc k from hinv.2
  refine invariant_of_along (I := fun s : Sealing =>
      s.Sound ∧ s.sealer.Sealed k.dayNanos ∧ s₀.sealer.lc.SameOn s.sealer.lc k)
    (fun s c hs hc => ?_) ⟨hsound, hk, .refl _ _⟩ hafter
  obtain ⟨hsound, hk, hsame⟩ := hs
  obtain ⟨hk', hstep⟩ := step_keeps hsound hc hk
  exact ⟨sound_step s c hsound hc, hk', hsame.trans hstep⟩

/-- Two proposals, on the second and the third day; the first is confirmed, the day sealed, and
the second cancelled.  A late call on the first is refused. -/
def ordinaryDays : List SealCmd :=
  [.create (proposal "a" (hours 9 10) 0),
   .create (proposal "b" (hours 33 34) 0),
   .read "room" "a" .confirm, .locked 0, .read "room" "a" .cancel,
   .advanceTo (2 * nsPerDay)]

theorem sealed_days_kept_ordinaryDays :
    (run step ⟨.newSealer oneRoom, []⟩ ordinaryDays).sealer.lc.SameOn
      (run step ⟨.newSealer oneRoom, []⟩
        (ordinaryDays ++ [.read "room" "b" .cancel, .locked 1, .locked 0])).sealer.lc
      ⟨1, .binding, nsPerDay⟩ :=
  (sealed_days_kept oneRoom ordinaryDays _ (by decide +kernel) _ (by decide +kernel)).2

/-- A call reads the proposal on the third day and waits; the proposal is moved to the second
day, which is then sealed; the call looks at the third day and confirms. -/
def staleConfirm : List SealCmd :=
  [.create (proposal "a" (hours 33 34) 0),
   .read "room" "a" .confirm, .read "room" "a" (.move (hours 9 10)), .locked 1,
   .advanceTo (2 * nsPerDay)]

theorem stale_confirm_changes_sealed :
    (run step ⟨.newSealer oneRoom, []⟩ staleConfirm).sealer.Sealed nsPerDay ∧
      ((run step ⟨.newSealer oneRoom, []⟩ staleConfirm).sealer.lc.index.days
        ⟨1, .proposed, nsPerDay⟩).isSome = true ∧
      (run step ⟨.newSealer oneRoom, []⟩
        (staleConfirm ++ [.locked 0])).sealer.lc.index.days ⟨1, .proposed, nsPerDay⟩ = none ∧
      ((run step ⟨.newSealer oneRoom, []⟩
        (staleConfirm ++ [.locked 0])).sealer.lc.index.days ⟨1, .binding, nsPerDay⟩).isSome =
          true := by
  decide +kernel

end Sealing

end Xolu.Cal
