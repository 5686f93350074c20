/-
# Concurrent calls of the lifecycle (pkg/cal: lifecycle.go, store.go, sqlitesource.go)

No lock is held across an operation of the lifecycle: several calls can be under way at once,
and what happens in between them is each read of the tables, each record write, each read of a
day of the index and each commit of a batch.  A `Task` is a call with the next of these steps
to be taken, and what the call has read so far; `Race` is a number of calls over one lifecycle.
A call that is alone does what the operation does (`create_alone`, `transition_alone`).

Transitions compare the state before they write it, so that they follow the edges of
`allowedTransition` whatever other calls do.  The record write of a creation, and that of an
execution, is an insert or replace that does not look at the state: `one_way_iff`.
-/
import Xolu.Cal.Exclusive

namespace Xolu.Cal

open List Keyed Runs Relation Lifecycle Source Task Function

/-- The compare-and-swap of `SetStateFrom`: the row is written if it has the state. -/
def Source.swapState (s : Source) (cal id : String) (before after : State) : Option Source :=
  match s.booking cal id with
  | none => none
  | some b => if b.state = before then some (s.updateRow { b with state := after }) else none

/-- A call under way, by its next step. -/
inductive Task where
  /-- `Create`, before it reads the calendar. -/
  | create (b : Booking)
  /-- The record of a creation is to be written. -/
  | put (b : Booking)
  /-- The record of a reservation is to be written. -/
  | execute (b : Booking)
  /-- `transition`, before it reads the booking. -/
  | transition (cal id : String) (after : State)
  /-- `SetStateFrom`, before it reads the bearer. -/
  | check (b : Booking) (after : State)
  /-- The state is to be compared and written. -/
  | swap (b : Booking) (after : State)
  /-- `removeFromPlane`, before it reads the live bookings; the booking may have to be added. -/
  | remove (b : Booking) (plane : Plane) (readd : Bool)
  /-- The recomputed days are to be committed. -/
  | recompute (b : Booking) (ord : Nat) (plane : Plane) (scope : List Int) (acc : Int → DayBitmap)
    (readd : Bool)
  /-- The booking is to be read again, and added. -/
  | reread (cal id : String)
  /-- `addToPlane`. -/
  | add (b : Booking)
  /-- The days that have been read, with their values, and those that have not; when all have
  been, the batch is to be committed. -/
  | apply (b : Booking) (ord : Nat) (plane : Plane) (read : List (DayOccupancy × DayBitmap))
    (todo : List DayOccupancy)
  | returned (r : Except CalError Unit)

namespace Task

/-- The index work of a transition whose record has been written. -/
def follow (b : Booking) (after : State) : Task :=
  match b.state.occupiesPlane, after.occupiesPlane with
  | some plane, some plane' => if plane ≠ plane' then .remove b plane true else .returned (.ok ())
  | some plane, none => .remove b plane false
  | none, some _ => .reread b.calendarID b.bookingID
  | none, none => .returned (.ok ())

/-- What follows when the days of a booking have been recomputed. -/
def removed (b : Booking) (readd : Bool) : Task :=
  if readd then .reread b.calendarID b.bookingID else .returned (.ok ())

/-- The next step of a call. -/
def step (l : Lifecycle) : Task → Task × Lifecycle
  | .create b =>
    match l.src.calendar b.calendarID with
    | none => (.returned (.error (.unknownCalendar b.calendarID)), l)
    | some _ => (.put (l.resolve b), l)
  | .put b =>
    match l.src.putBooking b with
    | .error e => (.returned (.error e), l)
    | .ok src =>
      (if b.state.occupiesPlane.isSome then .add b else .returned (.ok ()), { l with src := src })
  | .execute b =>
    match l.src.putBooking b with
    | .error e => (.returned (.error e), l)
    | .ok src => (.returned (.ok ()), { l with src := src })
  | .transition cal id after =>
    match l.src.booking cal id with
    | none => (.returned (.error (.unknownBooking cal id)), l)
    | some b =>
      if allowedTransition b.state after = false then
        (.returned (.error (.illegalTransition b.state after id)), l)
      else (.check b after, l)
  | .check b after =>
    match l.src.booking b.calendarID b.bookingID with
    | none => (.returned (.error (.unknownBooking b.calendarID b.bookingID)), l)
    | some nb =>
      if after = .binding ∧ validEntity nb.bearer = false then
        (.returned (.error .bearerRequired), l)
      else (.swap b after, l)
  | .swap b after =>
    match l.src.swapState b.calendarID b.bookingID b.state after with
    | none => (.returned (.error (.illegalTransition b.state after b.bookingID)), l)
    | some src => (follow b after, { l with src := src })
  | .remove b plane readd =>
    match l.index.ordinals b.calendarID with
    | none => (.returned (.error (.unknownCalendar b.calendarID)), l)
    | some ord =>
      match spanDays b.extendedSpan with
      | .error e => (.returned (.error (.spanDays e)), l)
      | .ok days =>
        let scope := days.map DayOccupancy.dayNanos
        match IndexStore.recomputeLoop plane scope (l.src.liveBookingsOn b.calendarID plane)
            fun _ => ⊥ with
        | .error e => (.returned (.error e), l)
        | .ok acc => (.recompute b ord plane scope acc readd, l)
  | .recompute b ord plane scope acc readd =>
    (removed b readd, { l with index := l.index.writeAll scope (fun day => ⟨ord, plane, day⟩) acc })
  | .reread cal id =>
    match l.src.booking cal id with
    | none => (.returned (.ok ()), l)
    | some nb => (.add nb, l)
  | .add b =>
    match b.occupancySpan with
    | none => (.returned (.ok ()), l)
    | some (span, plane) =>
      match l.index.ordinals b.calendarID with
      | none => (.returned (.error (.unknownCalendar b.calendarID)), l)
      | some ord =>
        match spanDays span with
        | .error e => (.returned (.error (.spanDays e)), l)
        | .ok days => (.apply b ord plane [] days, l)
  | .apply b ord plane read (d :: todo) =>
    (.apply b ord plane (read ++ [(d, l.index.dayValue ⟨ord, plane, d.dayNanos⟩)]) todo, l)
  | .apply _ ord plane read [] =>
    (.returned (.ok ()), { l with
      index := l.index.writeAll read (fun x => ⟨ord, plane, x.1.dayNanos⟩)
        fun x => x.2 ⊔ x.1.bits })
  | .returned r => (.returned r, l)

/-- What the call has returned, if it has. -/
def outcome : Task → Option (Except CalError Unit)
  | .returned r => some r
  | _ => none

end Task

/-- An operation on bookings that can be under way while others are. -/
inductive Call where
  | create (b : Booking)
  | confirm (cal id : String)
  | decline (cal id : String)
  | complete (cal id : String)
  | cancel (cal id : String)
  | markMissed (cal id : String)
  /-- The execution of a reservation, with the booking it stands for. -/
  | execute (b : Booking)

/-- How a call begins. -/
def Call.begin : Call → Task
  | .create b => .create b
  | .confirm cal id => .transition cal id .binding
  | .decline cal id => .transition cal id .notCommitted
  | .complete cal id => .transition cal id .honoured
  | .cancel cal id => .transition cal id .cancelled
  | .markMissed cal id => .transition cal id .missed
  | .execute b => .execute b

/-- A lifecycle and `n` callers with their calls. -/
structure Race (n : Nat) where
  life : Lifecycle
  tasks : Fin n → Task

/-- A caller whose call has returned makes another, or a caller's call takes its next step. -/
inductive RaceCmd (n : Nat) where
  | call (i : Fin n) (c : Call)
  | run (i : Fin n)

namespace Race

variable {n : Nat}

/-- No call is under way. -/
def idle (n : Nat) (l : Lifecycle) : Race n := ⟨l, fun _ => .returned (.ok ())⟩

/-- A caller's call takes its next step. -/
def advance (s : Race n) (i : Fin n) : Race n where
  life := ((s.tasks i).step s.life).2
  tasks := update s.tasks i ((s.tasks i).step s.life).1

/-- One step. -/
def step (s : Race n) : RaceCmd n → Race n
  | .call i c =>
    match s.tasks i with
    | .returned _ => { s with tasks := update s.tasks i c.begin }
    | _ => s
  | .run i => s.advance i

end Race

/-! ### A call that is alone -/

/-- A call goes on by itself until it is at another step. -/
def Alone : Task × Lifecycle → Task × Lifecycle → Prop := ReflTransGen fun x y => y = x.1.step x.2

variable {l l' : Lifecycle} {t : Task} {x y : Task × Lifecycle} {b : Booking}

theorem Alone.of_step (h : Alone (t.step l) y) : Alone (t, l) y := .head rfl h

theorem Alone.refl (x : Task × Lifecycle) : Alone x x := ReflTransGen.refl

namespace Task

/-- What is left of an addition: the days are read as they are. -/
theorem apply_alone (ord : Nat) (plane : Plane) (read : List (DayOccupancy × DayBitmap))
    (todo : List DayOccupancy) :
    Alone (.apply b ord plane read todo, l) (.returned (.ok ()), { l with
      index := l.index.writeAll
        (read ++ todo.map fun d => (d, l.index.dayValue ⟨ord, plane, d.dayNanos⟩))
        (fun x => ⟨ord, plane, x.1.dayNanos⟩) fun x => x.2 ⊔ x.1.bits }) := by
  induction todo generalizing read with
  | nil =>
    apply Alone.of_step
    rw [map_nil, append_nil]
    exact .refl _
  | cons d todo ih =>
    apply Alone.of_step
    rw [map_cons, append_cons]
    exact ih _

/-- Where a call that does what an operation does ends. -/
def result (r : Except CalError Unit × Lifecycle) : Task × Lifecycle := (.returned r.1, r.2)

variable (l b)

theorem add_alone : Alone (.add b, l) (result (l.addToPlane b)) := by
  apply Alone.of_step
  unfold addToPlane IndexStore.addToPlane IndexStore.applyBooking
  simp only [step]
  rcases b.occupancySpan with - | ⟨span, plane⟩
  · exact .refl _
  rcases l.index.ordinals b.calendarID with - | ord
  · exact .refl _
  dsimp only
  rcases spanDays span with e | days
  · exact .refl _
  · have h := apply_alone (b := b) (l := l) ord plane [] days
    simpa only [result, IndexStore.writeAll, Derived.batch, nil_append, foldl_map, if_true] using h

theorem reread_alone (cal id : String) : Alone (.reread cal id, l) (result (l.readd cal id)) := by
  apply Alone.of_step
  unfold readd
  simp only [step]
  rcases l.src.booking cal id with - | nb
  · exact .refl _
  · exact add_alone l nb

theorem remove_alone (plane : Plane) :
    Alone (.remove b plane false, l) (result (l.removeFromPlane b plane)) ∧
      Alone (.remove b plane true, l) (result (l.replace b plane b.calendarID b.bookingID)) := by
  unfold Lifecycle.replace removeFromPlane IndexStore.removeFromPlane IndexStore.recomputeDays
  refine ⟨.of_step ?_, .of_step ?_⟩ <;> simp only [step] <;>
    rcases l.index.ordinals b.calendarID with - | ord <;> try exact .refl _
  all_goals
    rcases spanDays b.extendedSpan with e | days
    · exact .refl _
    dsimp only
    rcases IndexStore.recomputeLoop plane _ _ _ with e | acc
    · exact .refl _
    apply Alone.of_step
  · exact .refl _
  · exact reread_alone ..

theorem follow_alone (after : State) :
    Alone (follow b after, l) (result (l.follow b b.calendarID b.bookingID after)) := by
  unfold follow Lifecycle.follow
  rcases b.state.occupiesPlane with - | plane <;> rcases after.occupiesPlane with - | plane' <;>
    dsimp only
  · exact .refl _
  · exact reread_alone ..
  · exact (remove_alone l b plane).1
  · split
    · exact (remove_alone l b plane).2
    · exact .refl _

/-- **A transition that is alone** does what `Lifecycle.transition` does. -/
theorem transition_alone (cal id : String) (after : State) :
    Alone (.transition cal id after, l) (result (l.transition cal id after)) := by
  apply Alone.of_step
  unfold Lifecycle.transition
  simp only [step]
  rcases hb : l.src.booking cal id with - | b
  · exact .refl _
  obtain ⟨-, rfl, rfl⟩ := mem_of_booking hb
  dsimp only
  split
  · exact .refl _
  apply Alone.of_step
  simp only [step, setStateFrom, hb]
  split
  · exact .refl _
  apply Alone.of_step
  simp only [step, swapState, hb, if_true, ne_eq, not_true_eq_false, if_false]
  exact follow_alone _ b after

/-- **A creation that is alone** does what `Lifecycle.create` does. -/
theorem create_alone :
    Alone (.create b, l) (result ((l.create b).1.map fun _ => (), (l.create b).2)) := by
  apply Alone.of_step
  unfold Lifecycle.create
  simp only [step]
  rcases hcal : l.src.calendar b.calendarID with - | cal
  · exact .refl _
  apply Alone.of_step
  simp only [step]
  rcases l.src.putBooking (l.resolve b) with e | src
  · exact .refl _
  dsimp only
  split
  · have h := add_alone { l with src := src } (l.resolve b)
    rcases hadd : addToPlane { l with src := src } (l.resolve b) with ⟨e | u, l'⟩ <;>
      rw [hadd] at h <;> exact h
  · exact .refl _

end Task

/-! ### One-way transitions -/

/-- Nothing leads out of the state. -/
def State.Terminal : State → Prop
  | .notCommitted | .cancelled | .missed | .honoured => True
  | _ => False

/-- Every record keeps its state or goes along an edge. -/
def Source.OneWay (s s' : Source) : Prop :=
  ∀ b ∈ s.bookings, ∃ b' ∈ s'.bookings, b'.key = b.key ∧
    (b'.state = b.state ∨ allowedTransition b.state b'.state = true)

theorem State.Terminal.not_allowed {st st' : State} (h : st.Terminal) :
    allowedTransition st st' = false := by
  cases st <;> first | rfl | cases h

theorem Source.OneWay.refl (s : Source) : s.OneWay s := fun b hb => ⟨b, hb, rfl, .inl rfl⟩

/-- A row written over, or added, goes one way iff the record it replaces does. -/
theorem Source.oneWay_iff {s s' : Source} {nb : Booking}
    (hmem : ∀ r, r ∈ s'.bookings ↔ r = nb ∨ r ∈ s.bookings ∧ r.key ≠ nb.key) :
    s.OneWay s' ↔ ∀ r ∈ s.bookings, r.key = nb.key →
      nb.state = r.state ∨ allowedTransition r.state nb.state = true := by
  constructor
  · intro h r hr hkey
    obtain ⟨r', hr', hkey', hst⟩ := h r hr
    rcases (hmem r').mp hr' with rfl | ⟨-, hne⟩
    · exact hst
    · exact absurd (hkey'.trans hkey) hne
  · intro h r hr
    by_cases hkey : r.key = nb.key
    · exact ⟨nb, (hmem nb).mpr (.inl rfl), hkey.symm, h r hr hkey⟩
    · exact ⟨r, (hmem r).mpr (.inr ⟨hr, hkey⟩), rfl, .inl rfl⟩

theorem Source.swapState_ok {s s' : Source} {cal id : String} {before after : State}
    (h : s.swapState cal id before after = some s') :
    ∃ r, s.booking cal id = some r ∧ r.state = before ∧
      s' = s.updateRow { r with state := after } := by
  unfold swapState at h
  split at h
  · cases h
  · split at h
    · cases h
      exact ⟨_, ‹_›, ‹_›, rfl⟩
    · cases h

namespace Task

/-- A call that has read the state and is about to write another has found the edge. -/
def OnEdge : Task → Prop
  | .check b after | .swap b after => allowedTransition b.state after = true
  | _ => True

/-- The record that the call is about to insert or replace, without a look at its state. -/
def upserts : Task → Option Booking
  | .put b | .execute b => some b
  | _ => none

/-- If the next step replaces a record that is accepted, the state is the same or has an edge
to the new one. -/
def Fresh (l : Lifecycle) (t : Task) : Prop :=
  ∀ b ∈ t.upserts, l.src.Accepts b → ∀ r ∈ l.src.bookings, r.key = b.key →
    b.state = r.state ∨ allowedTransition r.state b.state = true

instance (l : Lifecycle) (t : Task) : Decidable (t.Fresh l) := by
  unfold Fresh
  infer_instance

/-- What the next step of a call does to the records. -/
inductive Writes (l : Lifecycle) : Task → Source → Prop
  | none {t : Task} (h : ∀ b ∈ t.upserts, ¬ l.src.Accepts b) : Writes l t l.src
  | upsert {t : Task} {b : Booking} (h : t.upserts = some b) (hacc : l.src.Accepts b) :
      Writes l t (l.src.putRow { b with mode := .exclusive }.stored)
  | swap {b r : Booking} {after : State} (h : l.src.booking b.calendarID b.bookingID = some r)
      (hst : r.state = b.state) :
      Writes l (.swap b after) (l.src.updateRow { r with state := after })

theorem writes_step (l : Lifecycle) (t : Task) : Writes l t (t.step l).2.src := by
  have hput : ∀ b, t.upserts = some b →
      (∀ e, l.src.putBooking b = .error e → Writes l t l.src) ∧
        ∀ src, l.src.putBooking b = .ok src → Writes l t src := by
    intro b hb
    refine ⟨fun e he => .none fun b' hb' hacc => ?_, fun src hsrc => ?_⟩
    · obtain rfl : b = b' := Option.some.inj (hb.symm.trans hb')
      cases he.symm.trans (putBooking_eq_ok_iff.mpr ⟨hacc, rfl⟩)
    · obtain ⟨hacc, rfl⟩ := putBooking_eq_ok_iff.mp hsrc
      exact .upsert hb hacc
  have hnone : t.upserts = Option.none → Writes l t l.src := by
    intro h
    refine .none fun b hb => ?_
    rw [h] at hb
    cases hb
  cases t with
  | put b | execute b =>
    simp only [step]
    split
    · exact (hput b rfl).1 _ ‹_›
    · exact (hput b rfl).2 _ ‹_›
  | swap b after =>
    simp only [step]
    split
    · exact hnone rfl
    · obtain ⟨r, hr, hst, rfl⟩ := swapState_ok ‹_›
      exact .swap hr hst
  | apply b ord plane read todo => cases todo <;> exact hnone rfl
  | create | transition | check | remove | recompute | reread | add | returned =>
    refine cast (congrArg (Writes l _) ?_) (hnone rfl)
    simp only [step]
    repeat' split
    all_goals rfl

/-- **One step.**  The records go one way iff the step is fresh. -/
theorem oneWay_step_iff {l : Lifecycle} {t : Task} (h : t.OnEdge) :
    l.src.OneWay (t.step l).2.src ↔ t.Fresh l := by
  have hw := writes_step l t
  generalize (t.step l).2.src = src at hw
  cases hw with
  | none hno => exact iff_of_true (.refl _) fun b hb hacc => absurd hacc (hno b hb)
  | upsert hb hacc =>
    rw [oneWay_iff fun r => mem_putRow]
    unfold Fresh
    simp only [hb, Option.mem_def, Option.some.injEq, forall_eq', hacc, true_imp_iff]
    rfl
  | @swap b r after hr hst =>
    obtain ⟨hmem, -⟩ := mem_of_booking hr
    refine iff_of_true ?_ fun b hb => nomatch hb
    refine (oneWay_iff fun r' =>
      @mem_updateRow l.src { r with state := after } r' r hmem rfl).mpr ?_
    intro r' hr' hkey'
    obtain rfl : r' = r := l.src.uniqueBookings.eq_of_key hr' hmem hkey'
    exact .inr (hst ▸ h)

/-- A call comes to the write through the check of the edge. -/
theorem onEdge_step {l : Lifecycle} {t : Task} (h : t.OnEdge) : (t.step l).1.OnEdge := by
  cases t with
  | transition cal id after =>
    simp only [step]
    repeat' split
    · trivial
    · trivial
    · exact Bool.eq_true_of_not_eq_false ‹_›
  | check b after =>
    simp only [step]
    repeat' split
    · trivial
    · trivial
    · exact h
  | swap b after =>
    simp only [step, follow]
    repeat' split
    all_goals trivial
  | apply b ord plane read todo => cases todo <;> trivial
  | create | put | execute | remove | recompute | reread | add | returned =>
    simp only [step, removed]
    repeat' split
    all_goals trivial

end Task

namespace Race

variable {n : Nat}

/-- The next step of the caller is fresh. -/
def Fresh (s : Race n) : RaceCmd n → Prop
  | .call _ _ => True
  | .run i => (s.tasks i).Fresh s.life

instance (s : Race n) : DecidablePred s.Fresh
  | .call _ _ => .isTrue trivial
  | .run i => inferInstanceAs (Decidable ((s.tasks i).Fresh s.life))

/-- Every record keeps its state or goes along an edge in the step. -/
def StepsOneWay (s : Race n) (c : RaceCmd n) : Prop := s.life.src.OneWay (s.step c).life.src

theorem step_call (s : Race n) (i : Fin n) (c : Call) :
    s.step (.call i c) = s ∨ (∃ r, s.tasks i = .returned r) ∧
      s.step (.call i c) = { s with tasks := update s.tasks i c.begin } := by
  simp only [step]
  split
  · exact .inr ⟨⟨_, ‹_›⟩, rfl⟩
  · exact .inl rfl

variable {s : Race n}

theorem onEdge_advance (h : ∀ i, (s.tasks i).OnEdge) (c : RaceCmd n) :
    ∀ i, ((s.step c).tasks i).OnEdge := by
  cases c with
  | call j c =>
    rcases s.step_call j c with hs | ⟨-, hs⟩ <;> rw [hs]
    · exact h
    · refine (forall_update_iff _ fun _ => Task.OnEdge).mpr ⟨?_, fun i _ => h i⟩
      cases c <;> trivial
  | run j =>
    refine (forall_update_iff _ fun _ => Task.OnEdge).mpr ⟨?_, fun i _ => h i⟩
    exact Task.onEdge_step (h j)

theorem stepsOneWay_iff (h : ∀ i, (s.tasks i).OnEdge) (c : RaceCmd n) :
    s.StepsOneWay c ↔ s.Fresh c := by
  cases c with
  | call i c =>
    refine iff_of_true ?_ trivial
    unfold StepsOneWay
    rcases s.step_call i c with hs | ⟨-, hs⟩ <;> rw [hs] <;> exact .refl _
  | run i => exact Task.oneWay_step_iff (h i)

/-- A record in a terminal state stays in it over a run that goes one way. -/
theorem terminal_stays {cmds : List (RaceCmd n)} (h : Along step StepsOneWay s cmds)
    {b : Booking} (hb : b ∈ s.life.src.bookings) (hst : b.state.Terminal) :
    ∃ b' ∈ (run step s cmds).life.src.bookings, b'.key = b.key ∧ b'.state = b.state := by
  induction cmds generalizing s b with
  | nil => exact ⟨b, hb, rfl, rfl⟩
  | cons c cmds ih =>
    obtain ⟨b', hb', hkey, hedge⟩ := h.1 b hb
    have hsame : b'.state = b.state := by
      rcases hedge with hsame | hedge
      · exact hsame
      · rw [hst.not_allowed] at hedge
        cases hedge
    obtain ⟨b'', hb'', hkey', hsame'⟩ := ih h.2 hb' (hsame ▸ hst)
    exact ⟨b'', hb'', hkey'.trans hkey, hsame'.trans hsame⟩

/-- In a terminal state at some point of the run, in the same state at its end. -/
def TerminalStays (s : Race n) (cmds : List (RaceCmd n)) : Prop :=
  ∀ before after, cmds = before ++ after →
    ∀ b ∈ (run step s before).life.src.bookings, b.state.Terminal →
      ∃ b' ∈ (run step s cmds).life.src.bookings, b'.key = b.key ∧ b'.state = b.state

/-- **The lifecycle is a one-way street**, over every interleaving of calls, iff every record
write of a creation or an execution is fresh: there is no record under the key yet, or its
state is the one that is written or has an edge to it. -/
theorem one_way_iff (n : Nat) (l : Lifecycle) (cmds : List (RaceCmd n)) :
    Along step StepsOneWay (idle n l) cmds ∧ TerminalStays (idle n l) cmds ↔
      Along step Fresh (idle n l) cmds := by
  have hiff : Along step StepsOneWay (idle n l) cmds ↔ Along step Fresh (idle n l) cmds :=
    along_iff_of_invariant (I := fun s => ∀ i, (s.tasks i).OnEdge) (N := fun _ _ => True)
      (fun s c hs _ _ => onEdge_advance hs c) (fun s c hs _ => stepsOneWay_iff hs c)
      (fun _ => trivial) .trivial
  rw [← hiff]
  refine and_iff_left_of_imp fun h before after hsplit b hb hst => ?_
  rw [hsplit, along_append] at h
  rw [hsplit, run_append]
  exact terminal_stays h.2 hb hst

/-- One caller proposes a booking, cancels it and proposes it again. -/
def proposeAgain : List (RaceCmd 1) :=
  [.call 0 (.create (proposal "a" (hours 9 10) 0)), .run 0, .run 0, .run 0, .run 0, .run 0,
   .call 0 (.cancel "room" "a"), .run 0, .run 0, .run 0, .run 0, .run 0,
   .call 0 (.create (proposal "a" (hours 9 10) 0)), .run 0, .run 0]

/-- The record write of the second proposal takes the booking out of its terminal state. -/
theorem cancelled_proposed_again : let s := run step (idle 1 oneRoom) (proposeAgain.take 14)
    let s' := run step (idle 1 oneRoom) proposeAgain
    (s.life.src.booking "room" "a").map Booking.state = some .cancelled ∧
      (s'.life.src.booking "room" "a").map Booking.state = some .proposed ∧
      allowedTransition .cancelled .proposed = false ∧
      proposeAgain = proposeAgain.take 14 ++ [.run 0] := by
  refine ⟨?_, ?_, ?_, ?_⟩
  · decide +kernel
  · decide +kernel
  · decide
  · rfl

end Race

end Xolu.Cal
