/-
# The booking lifecycle (pkg/cal/lifecycle.go, pkg/cal/commit.go)

`Lifecycle` drives the records and the index together.  Every operation writes the record
first and then brings the index along: `create` adds the booking, a transition between planes
removes and adds, one that leaves the planes removes, `move` removes at the old span and adds
at the new one.  If the index step fails the record stays written.

`move` and `matchCommit` look for conflicts first; `create` and the transitions do not.
-/
import Xolu.Cal.Index

namespace Xolu.Cal

def allowedTransition : State → State → Bool
  | .proposed, after =>
    decide (after = .binding) || decide (after = .notCommitted) || decide (after = .cancelled) ||
      decide (after = .proposed)
  | .binding, after =>
    decide (after = .honoured) || decide (after = .cancelled) || decide (after = .missed)
  | _, _ => false

/-- `spanOverlap`: the common part of two spans. -/
def spanOverlap (a b : Span) : Option Span :=
  let startN := if unixNano a.start < unixNano b.start then unixNano b.start else unixNano a.start
  let endN := if unixNano b.stop < unixNano a.stop then unixNano b.stop else unixNano a.stop
  if startN < endN then some ⟨startN, endN⟩ else none

/-- `spanConflicts`: the live bookings of the plane, but for one, that overlap the span. -/
def Source.spanConflicts (s : Source) (cal : String) (when' : Span) (plane : Plane)
    (exclude : String) : List Conflict :=
  (s.liveBookingsOn cal plane).filterMap fun other =>
    if other.bookingID = exclude then none
    else (spanOverlap other.span when').map fun ov =>
      ⟨other.bookingID, ov, "exclusive-vs-exclusive overlap"⟩

structure Lifecycle where
  src : Source
  index : IndexStore

namespace Lifecycle

section

variable (l : Lifecycle)

/-- `addToPlane` on the lifecycle's index. -/
def addToPlane (b : Booking) : Except CalError Unit × Lifecycle :=
  match l.index.addToPlane b with
  | .error e => (.error e, l)
  | .ok x => (.ok (), { l with index := x })

/-- `removeFromPlane` on the lifecycle's index. -/
def removeFromPlane (b : Booking) (plane : Plane) : Except CalError Unit × Lifecycle :=
  match l.index.removeFromPlane l.src b plane with
  | .error e => (.error e, l)
  | .ok x => (.ok (), { l with index := x })

/-- The booking read again and added, after a removal that has succeeded. -/
def readd (cal id : String) : Except CalError Unit × Lifecycle :=
  match l.src.booking cal id with
  | none => (.ok (), l)
  | some nb => l.addToPlane nb

variable (b : Booking)

/-- A removal and, if it succeeds, the booking added anew. -/
def replace (plane : Plane) (cal id : String) : Except CalError Unit × Lifecycle :=
  match l.removeFromPlane b plane with
  | (.error e, l) => (.error e, l)
  | (.ok _, l) => l.readd cal id

/-- The booking that `Create` writes: without a state it takes the calendar's default. -/
def resolve : Booking :=
  match l.src.calendar b.calendarID with
  | none => b
  | some cal => if b.state = .unset then { b with state := cal.defaultState } else b

def create : Except CalError Booking × Lifecycle :=
  if l.src.calendar b.calendarID = none then (.error (.unknownCalendar b.calendarID), l)
  else
    let b := l.resolve b
    match l.src.putBooking b with
    | .error e => (.error e, l)
    | .ok src =>
      let l := { l with src := src }
      if b.state.occupiesPlane.isSome then
        match l.addToPlane b with
        | (.error e, l) => (.error e, l)
        | (.ok _, l) => (.ok b, l)
      else (.ok b, l)

/-- The index after a transition of `b`, by the planes before and after it. -/
def follow (cal id : String) (after : State) : Except CalError Unit × Lifecycle :=
  match b.state.occupiesPlane, after.occupiesPlane with
  | some plane, some plane' =>
    -- on one plane the occupancy does not change
    if plane ≠ plane' then l.replace b plane cal id else (.ok (), l)
  | some plane, none => l.removeFromPlane b plane
  | none, some _ => l.readd cal id
  | none, none => (.ok (), l)

section

variable (cal id : String)

/-- `transition`: the record first, and then the index. -/
def transition (after : State) : Except CalError Unit × Lifecycle :=
  match l.src.booking cal id with
  | none => (.error (.unknownBooking cal id), l)
  | some b =>
    if allowedTransition b.state after = false then
      (.error (.illegalTransition b.state after id), l)
    else
      match l.src.setStateFrom cal id b.state after with
      | .error e => (.error e, l)
      | .ok src => ({ l with src := src } : Lifecycle).follow b cal id after

def confirm := l.transition cal id .binding

def decline := l.transition cal id .notCommitted

def complete := l.transition cal id .honoured

def cancel := l.transition cal id .cancelled

def markMissed := l.transition cal id .missed

end

end

/-- `MoveResult`; no dependents are tracked. -/
structure MoveResult where
  moved : Bool
  conflicts : List Conflict

def move (l : Lifecycle) (cal id : String) (dest : Span) : Except CalError MoveResult × Lifecycle :=
  match l.src.booking cal id with
  | none => (.error (.unknownBooking cal id), l)
  | some b =>
    if ¬ dest.Valid then (.error .invalidSpan, l)
    else if l.src.calendar cal = none then (.error (.unknownCalendar cal), l)
    else
      match b.state.occupiesPlane with
      | none => (.error (.notOccupying b.state), l)
      | some plane =>
        let conflicts := l.src.spanConflicts cal dest plane b.bookingID
        if conflicts ≠ [] then (.ok ⟨false, conflicts⟩, l)
        else
          match l.src.setSpan cal id dest with
          | .error e => (.error e, l)
          | .ok src =>
            match ({ l with src := src } : Lifecycle).replace b plane cal id with
            | (.error e, l) => (.error e, l)
            | (.ok _, l) => (.ok ⟨true, []⟩, l)

/-! ### MatchCommit -/

structure CommitMember where
  calendarID : String
  bookingID : String
  mode : Mode
  bearer : Nat
deriving DecidableEq, Repr

/-- A member with its calendar. -/
abbrev ResolvedMember := Calendar × CommitMember

structure CommitResult where
  committed : Bool
  placed : List String
  blocking : List String
  conflicts : List Conflict

def planeForDefaultState (st : State) : Plane := st.occupiesPlane.getD .binding

/-- The key under which `MatchCommit` remembers a member. -/
def CommitMember.seenKey (m : CommitMember) : String := m.calendarID ++ "\x00" ++ m.bookingID

/-- The members with their calendars, if all are known, named and distinct.  `seen` are the
members before. -/
def resolveMembers (l : Lifecycle) :
    List CommitMember → List String → Except CalError (List ResolvedMember)
  | [], _ => .ok []
  | m :: members, seen =>
    match l.src.calendar m.calendarID with
    | none => .error (.unknownCalendar m.calendarID)
    | some cal =>
      if m.bookingID = "" then .error .emptyID
      else if m.seenKey ∈ seen then
        .error (.duplicateBooking m.calendarID m.bookingID)
      else
        match l.resolveMembers members (m.seenKey :: seen) with
        | .error e => .error e
        | .ok res => .ok ((cal, m) :: res)

/-- The conflicts of a member, on the plane its calendar's default state is on. -/
def memberConflicts (l : Lifecycle) (when' : Span) (r : ResolvedMember) : List Conflict :=
  l.src.spanConflicts r.1.calendarID when' (planeForDefaultState r.1.defaultState) ""

/-- The booking of a member. -/
def memberBooking (when' : Span) (r : ResolvedMember) : Booking where
  bookingID := r.2.bookingID
  calendarID := r.1.calendarID
  state := r.1.defaultState
  span := when'
  mode := r.2.mode
  bearer := r.2.bearer
  bufferAfter := Instant.zeroTime

/-- `rollback`: every member with the booking id of a placed one is cancelled. -/
def rollback (l : Lifecycle) (placed : List String) (res : List ResolvedMember) :
    Lifecycle :=
  res.foldl (fun l r =>
    if r.2.bookingID ∈ placed then (l.cancel r.1.calendarID r.2.bookingID).2 else l) l

/-- The second phase: the members are created in order, and a failure rolls back. -/
def placeAll (when' : Span) (all : List ResolvedMember) :
    List ResolvedMember → List String → Lifecycle → Except CalError CommitResult × Lifecycle
  | [], placed, l => (.ok ⟨true, placed, [], []⟩, l)
  | r :: res, placed, l =>
    match l.create (memberBooking when' r) with
    | (.error e, l) => (.error e, l.rollback placed all)
    | (.ok _, l) => placeAll when' all res (placed ++ [r.2.bookingID]) l

def matchCommit (l : Lifecycle) (when' : Span) (members : List CommitMember) :
    Except CalError CommitResult × Lifecycle :=
  if members = [] then (.error .noMembers, l)
  else if ¬ when'.Valid then (.error .invalidSpan, l)
  else
    match l.resolveMembers members [] with
    | .error e => (.error e, l)
    | .ok res =>
      let blocked := res.filter fun r => decide (l.memberConflicts when' r ≠ [])
      if blocked ≠ [] then
        (.ok ⟨false, [], (blocked.map fun r => r.1.calendarID).mergeSort,
          blocked.flatMap (l.memberConflicts when')⟩, l)
      else placeAll when' res res [] l

/-! ### What the operations do -/

variable {l : Lifecycle} {b : Booking} {cal id : String}

@[simp] theorem src_addToPlane : (l.addToPlane b).2.src = l.src := by
  unfold addToPlane
  split <;> rfl

@[simp] theorem src_removeFromPlane {plane : Plane} :
    (l.removeFromPlane b plane).2.src = l.src := by
  unfold removeFromPlane
  split <;> rfl

@[simp] theorem src_readd : (l.readd cal id).2.src = l.src := by
  unfold readd
  split
  · rfl
  · exact src_addToPlane

@[simp] theorem src_replace {plane : Plane} : (l.replace b plane cal id).2.src = l.src := by
  have hrem : (l.removeFromPlane b plane).2.src = l.src := src_removeFromPlane
  unfold replace
  split <;> rename_i heq <;> rw [heq] at hrem
  · exact hrem
  · exact src_readd.trans hrem

/-- The index operations leave the records. -/
@[simp] theorem src_follow {after : State} : (l.follow b cal id after).2.src = l.src := by
  unfold follow
  split
  · split
    · exact src_replace
    · rfl
  · exact src_removeFromPlane
  · exact src_readd
  · rfl

/-- A transition does nothing, or writes the new state of an allowed edge and lets the index
follow. -/
theorem transition_cases (l : Lifecycle) (cal id : String) (after : State) :
    (l.transition cal id after).2 = l ∨
      ∃ b, l.src.booking cal id = some b ∧ allowedTransition b.state after = true ∧
        (after = .binding → validEntity b.bearer = true) ∧
        l.transition cal id after =
          ({ l with src := l.src.updateRow { b with state := after } } : Lifecycle).follow b
            cal id after := by
  unfold transition
  split
  · exact .inl rfl
  rename_i b hb
  split_ifs with hallowed
  · exact .inl rfl
  split
  · exact .inl rfl
  rename_i src hsrc
  obtain ⟨b', hb', -, rfl, hbearer⟩ := Source.setStateFrom_ok hsrc
  obtain rfl : b = b' := Option.some.inj (hb.symm.trans hb')
  exact .inr ⟨b, hb, Bool.eq_true_of_not_eq_false hallowed, hbearer, rfl⟩

/-- A move does nothing, or finds no conflict at its destination, writes the new span and
replaces the booking in the index. -/
theorem move_cases (l : Lifecycle) (cal id : String) (dest : Span) :
    (l.move cal id dest).2 = l ∨
      ∃ b plane, l.src.booking cal id = some b ∧ dest.Valid ∧ l.src.calendar cal ≠ none ∧
        b.state.occupiesPlane = some plane ∧ l.src.spanConflicts cal dest plane b.bookingID = [] ∧
        (l.move cal id dest).2 =
          (({ l with src := l.src.updateRow { b with span := dest.stored } } : Lifecycle).replace b
            plane cal id).2 := by
  unfold move
  split
  · exact .inl rfl
  rename_i b hb
  split_ifs with hvalid hcal
  · exact .inl rfl
  · split
    · exact .inl rfl
    rename_i plane hplane
    dsimp only
    split_ifs with hconf
    · exact .inl rfl
    split
    · exact .inl rfl
    rename_i src hsrc
    obtain ⟨b', hb', -, rfl⟩ := Source.setSpan_ok hsrc
    obtain rfl : b = b' := Option.some.inj (hb.symm.trans hb')
    refine .inr ⟨b, plane, hb, hvalid, hcal, hplane, not_not.mp hconf, ?_⟩
    rcases Lifecycle.replace _ b plane cal id with ⟨e | u, l'⟩ <;> rfl
  · exact .inl rfl

/-- A booking is resolved in its state only. -/
theorem resolve_eq (l : Lifecycle) (b : Booking) :
    l.resolve b = { b with state := (l.resolve b).state } := by
  unfold resolve
  split
  · rfl
  · split <;> rfl

@[simp] theorem calendarID_resolve : (l.resolve b).calendarID = b.calendarID := by
  rw [resolve_eq]

/-- The record that a creation writes. -/
def written (l : Lifecycle) (b : Booking) : Booking :=
  { l.resolve b with mode := .exclusive }.stored

@[simp] theorem key_written : (l.written b).key = b.key := by
  rw [written, resolve_eq]
  rfl

/-- A creation does nothing, or passes the checks, writes the record and adds the booking, as
it was passed, to the index. -/
theorem create_cases (l : Lifecycle) (b : Booking) :
    (¬ l.src.Accepts (l.resolve b) ∧ (l.create b).2 = l) ∨
      l.src.Accepts (l.resolve b) ∧
        (l.create b).2 =
          (({ l with src := l.src.putRow (l.written b) } : Lifecycle).addToPlane
            (l.resolve b)).2 := by
  by_cases hacc : l.src.Accepts (l.resolve b)
  · refine .inr ⟨hacc, ?_⟩
    have hcal := hacc.calendar
    rw [calendarID_resolve] at hcal
    unfold create
    rw [if_neg hcal]
    simp only [Source.putBooking_eq_ok_iff.mpr ⟨hacc, rfl⟩]
    split_ifs with hocc
    · split <;> exact (congrArg Prod.snd ‹_›).symm
    · -- a booking on no plane adds nothing
      have hnone := Booking.occupancySpan_eq_none_iff.mpr (Option.not_isSome_iff_eq_none.mp hocc)
      simp only [addToPlane, IndexStore.addToPlane, IndexStore.applyBooking, hnone]
      rfl
  · refine .inl ⟨hacc, ?_⟩
    unfold create
    split_ifs with hcal
    · rfl
    dsimp only
    split
    · rfl
    · rename_i src hsrc
      exact absurd (Source.putBooking_eq_ok_iff.mp hsrc).1 hacc

end Lifecycle

end Xolu.Cal
