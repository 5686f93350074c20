/-
# Bookings as a dxp participant (pkg/cal/dxp_adapter.go)

A transaction reserves the creation of a booking.  `reserve` looks for conflicts among the
bookings and, day by day, among the claims of other transactions, holds a claim on every day
of the span and stashes the parameters.  `validate` looks again; `execute` writes the record
and looks at nothing.  The index is brought along by `postCommit`.

`CalSite` is one tenant's lifecycle, claims and stash, with the clock, and its commands are
all the ways a booking is written: the lifecycle, `MatchCommit` and the participant.
-/
import Xolu.Cal.Rebuild
import Xolu.Dxp.Cache

namespace Xolu.Cal

open Dxp Gregorian

structure CalTransitionParams where
  calendarID : String
  bookingID : String
  span : Span
  mode : Mode
  bearer : Nat
  state : State
deriving DecidableEq, Repr

/-- A number in so many digits. -/
def digits (width : Nat) (n : Int) : String :=
  let text := toString n
  String.ofList (List.replicate (width - text.length) '0') ++ text

/-- The date of a day in the layout `2006-01-02`. -/
def dateText (dayNanos : Int) : String :=
  let day := dayNanos / nsPerDay + 719528
  let month := monthOf day
  digits 4 (month / 12) ++ "-" ++ digits 2 (month % 12 + 1) ++ "-" ++
    digits 2 (day - monthStart month + 1)

def dxpResource (calendarID : String) (dayNanos : Int) : String :=
  "cal:" ++ calendarID ++ ":" ++ dateText dayNanos

/-- The booking that a reservation becomes at execution; it has no buffer. -/
def CalTransitionParams.booking (tp : CalTransitionParams) : Booking where
  bookingID := tp.bookingID
  calendarID := tp.calendarID
  state := tp.state
  span := tp.span
  mode := tp.mode
  bearer := tp.bearer
  bufferAfter := Instant.zeroTime

/-- One tenant's bookings with its dxp participant. -/
structure CalSite where
  tenant : String
  life : Lifecycle
  cache : MemCache
  pending : String → Option CalTransitionParams
  now : Int

namespace CalSite

variable (s : CalSite)

/-- The bookings in the way of a reservation. -/
def bookingConflicts (tp : CalTransitionParams) (exclude : String) : List Conflict :=
  s.life.src.spanConflicts tp.calendarID tp.span (Lifecycle.planeForDefaultState tp.state) exclude

/-- The first live claim on one of the days that a claim of this weight does not go with. -/
def claimConflict (tenant : String) (resources : List String) (w : Weight)
    (skip : Claim → Bool) : Option Conflict :=
  (resources.flatMap (s.cache.claimsFor s.now tenant "cal")).findSome? fun c =>
    if skip c then none
    else if c.weight = .pessimistic ∨ w = .pessimistic then
      some ⟨c.txn, ⟨Instant.zeroTime, Instant.zeroTime⟩, "live dxp reservation"⟩
    else none

/-- The claim that `Reserve` returns for a span without days. -/
def noClaim : Claim := ⟨"", "", "", "", .pessimistic, 0, 0, ""⟩

def reserve (tenant : String) (tp : CalTransitionParams) (txn participantID : String)
    (deadline : Int) (w : Weight) : Except CalError Claim × CalSite :=
  if tp.calendarID = "" ∨ tp.bookingID = "" then (.error .emptyID, s)
  else if ¬ tp.span.Valid then (.error .invalidSpan, s)
  else if s.tenant ≠ tenant then (.error (.tenantMismatch tenant), s)
  else
    match s.life.src.calendar tp.calendarID with
    | none => (.error (.unknownCalendar tp.calendarID), s)
    | some cal =>
      let tp := { tp with state := if tp.state = .unset then cal.defaultState else tp.state }
      match spanDays tp.span with
      | .error e => (.error (.spanDays e), s)
      | .ok days =>
        let resources := days.map fun d => dxpResource tp.calendarID d.dayNanos
        let conflicts := s.bookingConflicts tp ""
        if conflicts ≠ [] then (.error (.conflict tp.calendarID conflicts), s)
        else
          -- claims of the same transaction count here
          match s.claimConflict tenant resources w fun _ => false with
          | some c => (.error (.conflict tp.calendarID [c]), s)
          | none =>
            let claims := resources.map fun r =>
              (⟨txn, "cal", tenant, r, w, 1, deadline, participantID⟩ : Claim)
            (.ok (claims.headD noClaim), { s with
              cache := claims.foldl MemCache.hold s.cache
              pending := Function.update s.pending (pendingKey txn participantID) (some tp) })

def validate (c : Claim) : Except CalError Unit :=
  if c.weight = .optimistic then .ok ()
  else
    match s.pending (claimKey c) with
    | none => .error (.noPending c.txn c.participantId)
    | some tp =>
      if s.life.src.calendar tp.calendarID = none then .error (.unknownCalendar tp.calendarID)
      else
        match spanDays tp.span with
        | .error e => .error (.spanDays e)
        | .ok days =>
          let resources := days.map fun d => dxpResource tp.calendarID d.dayNanos
          let conflicts := s.bookingConflicts tp tp.bookingID
          if conflicts ≠ [] then .error (.conflict tp.calendarID conflicts)
          else
            match s.claimConflict c.tenant resources c.weight fun other => other.txn == c.txn with
            | some conflict => .error (.conflict tp.calendarID [conflict])
            | none => .ok ()

/-- `Execute`, and the commit of its transaction. -/
def execute (c : Claim) : Except CalError Unit × CalSite :=
  match s.pending (claimKey c) with
  | none => (.error (.noPending c.txn c.participantId), s)
  | some tp =>
    match s.life.src.putBooking tp.booking with
    | .error e => (.error e, s)
    | .ok src => (.ok (), { s with life := { s.life with src := src } })

def release (c : Claim) : CalSite :=
  { s with pending := Function.update s.pending (claimKey c) none }

/-- `PostCommit`: the record is read again and added to the index. -/
def postCommit (c : Claim) : Except CalError Unit × CalSite :=
  match s.pending (claimKey c) with
  | none => (.ok (), s)
  | some tp =>
    let s := s.release c
    match s.life.src.booking tp.calendarID tp.bookingID with
    | none => (.error (.unknownBooking tp.calendarID tp.bookingID), s)
    | some b =>
      -- a booking on no plane adds nothing
      let (r, life) := s.life.addToPlane b
      (r, { s with life := life })

end CalSite

/-- `Manager.CreateCalendar`: the record, and its ordinal in the index. -/
def Lifecycle.createCalendar (l : Lifecycle) (c : Calendar) :
    Except CalError Calendar × Lifecycle :=
  match l.src.createCalendar c with
  | .error e => (.error e, l)
  | .ok (created, src) => (.ok created, ⟨src, l.index.registerCalendar created⟩)

/-- A step of a tenant. -/
inductive CalCmd where
  | createCalendar (c : Calendar)
  | lifecycle (c : LifecycleCmd)
  | matchCommit (when' : Span) (members : List Lifecycle.CommitMember)
  | reserve (tenant : String) (tp : CalTransitionParams) (txn participantID : String)
    (deadline : Int) (w : Weight)
  | validate (c : Claim)
  | execute (c : Claim)
  | postCommit (c : Claim)
  | release (c : Claim)
  | confirmTxn (txn : String)
  | releaseTxn (txn : String)
  /-- Time passes, and deadlines with it. -/
  | tick (d : Nat)

namespace CalSite

/-- A tenant without calendars. -/
def init (tenant : String) (now : Int) : CalSite where
  tenant := tenant
  life := ⟨.empty, ⟨fun _ => none, fun _ => none⟩⟩
  cache := .empty
  pending := fun _ => none
  now := now

/-- The site after a step. -/
def step (s : CalSite) : CalCmd → CalSite
  | .createCalendar c => { s with life := (s.life.createCalendar c).2 }
  | .lifecycle c => { s with life := s.life.step c }
  | .matchCommit when' members => { s with life := (s.life.matchCommit when' members).2 }
  | .reserve tenant tp txn participantID deadline w =>
    (s.reserve tenant tp txn participantID deadline w).2
  | .validate _ => s
  | .execute c => (s.execute c).2
  | .postCommit c => (s.postCommit c).2
  | .release c => s.release c
  | .confirmTxn txn => { s with cache := (s.cache.confirmTxn s.now s.tenant txn).2 }
  | .releaseTxn txn => { s with cache := (s.cache.releaseTxn s.now s.tenant txn).2 }
  | .tick d => { s with now := s.now + d }

end CalSite

end Xolu.Cal
