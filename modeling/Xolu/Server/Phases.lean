/-
# The phases of an instance (pkg/server/v2_dxp_dispatch.go)

`dispatchDxpTxnCore` reserves and validates the participants in their listed order, executes
them, and writes the outcome to the instance's `dxp_txn` row in a transaction of its own.  On
the collapsed path all participants execute in one shared transaction, committed after a
barrier; on the phased path each has its own store and commits it by itself.  Meanwhile
`DxpSweeper.Sweep` expires rows past their deadline and later deletes the ended ones.

The dispatcher and the sweeper are one machine here, `Dispatch`, whose commands carry what
the dispatcher cannot know: which calls fail and with what, which goroutine runs next, when
the sweeper runs, where the process stops.  The write-target locks of the goroutines only
remove schedules and are left out.  `Taken` lists what a step can do.
-/
import Xolu.Lib.Num64

namespace Xolu.Server

open Num64

/-! ### The row -/

/-- The terminal statuses of an instance. -/
inductive Terminal where
  | committed
  | released
  | expired
deriving DecidableEq, Repr

/-- The `status` column. -/
inductive TxnStatus where
  | active
  | ended (t : Terminal)
deriving DecidableEq, Repr

/-- A `dxp_txn` row.  A deleted row keeps its last contents here. -/
structure TxnRow where
  status : TxnStatus
  committedThrough : Nat
  deadlineNs : Int
  createdAt : Int
  deleted : Bool
deriving DecidableEq, Repr

namespace TxnRow

/-- The row as it is inserted. -/
def inserted (deadlineNs createdAt : Int) : TxnRow := ⟨.active, 0, deadlineNs, createdAt, false⟩

variable (row : TxnRow)

/-- `markDxpTxnTerminal`: the outcome is written if the row is still active. -/
def markTerminal (t : Terminal) (through : Nat) : Bool × TxnRow :=
  if row.deleted = false ∧ row.status = .active then
    (true, { row with status := .ended t, committedThrough := through })
  else (false, row)

/-- The update of `Sweep`. -/
def expire (now : Int) : TxnRow :=
  if row.deleted = false ∧ row.status = .active ∧ row.deadlineNs < now then
    { row with status := .ended .expired, committedThrough := 0 }
  else row

/-- The instant before which ended rows are deleted. -/
def cutoff (retentionSecs now : Int) : Int := now + wrap (-wrap (retentionSecs * 1000000000))

/-- The delete of `Sweep`; a retention that is not positive turns it off. -/
def purge (retentionSecs now : Int) : TxnRow :=
  if 0 < retentionSecs ∧ row.status ≠ .active ∧ row.createdAt < cutoff retentionSecs now then
    { row with deleted := true }
  else row

/-- The second row tells the same outcome as the first. -/
def SameOutcome (row row' : TxnRow) : Prop :=
  row'.status = row.status ∧ row'.committedThrough = row.committedThrough

theorem SameOutcome.refl : row.SameOutcome row := ⟨rfl, rfl⟩

theorem SameOutcome.trans {r₁ r₂ r₃ : TxnRow} (h : r₁.SameOutcome r₂) (h' : r₂.SameOutcome r₃) :
    r₁.SameOutcome r₃ := ⟨h'.1.trans h.1, h'.2.trans h.2⟩

theorem expire_of_ended {row : TxnRow} (h : row.status ≠ .active) (now : Int) :
    row.expire now = row :=
  if_neg fun ha => h ha.2.1

theorem sameOutcome_purge (retentionSecs now : Int) :
    row.SameOutcome (row.purge retentionSecs now) := by
  unfold purge
  split
  · exact ⟨rfl, rfl⟩
  · exact .refl row

theorem purge_of_active {row : TxnRow} (h : row.status = .active) (retentionSecs now : Int) :
    row.purge retentionSecs now = row :=
  if_neg fun hp => hp.2.1 h

/-- The update of `Sweep` leaves the row or records that it expired with nothing committed. -/
theorem expire_cases (now : Int) :
    row.expire now = row ∨
      row.status = .active ∧ row.deadlineNs < now ∧ row.deleted = false ∧
        row.expire now = { row with status := .ended .expired, committedThrough := 0 } := by
  unfold expire
  split
  · rename_i h
    exact .inr ⟨h.2.1, h.2.2, h.1, rfl⟩
  · exact .inl rfl

end TxnRow

/-! ### The dispatcher -/

/-- A storage engine behind a primitive. -/
inductive Engine where
  | sql
  | sqlLoc
  | sqlObj
  | pebble
deriving DecidableEq, Repr

def dxpEngineOf : String → Option Engine
  | "bal" | "cal" | "entity" | "fsm" => some .sql
  | "loc" => some .sqlLoc
  | "obj" => some .sqlObj
  | "ts" => some .pebble
  | _ => none

/-- A participant of a definition, as far as the dispatcher reads it. -/
structure ParticipantSpec where
  id : String
  primitive : String
deriving DecidableEq, Repr

/-- What `dispatchDxpTxnCore` is called with: the instance, the analysis of its definition
and which of the optional stores are supplied. -/
structure Dispatcher where
  txnID : Int
  participants : List ParticipantSpec
  collapseEligible : Bool
  engineHomogeneous : Bool
  pebbleDB : Bool
  locDB : Bool
  objDB : Bool

/-- `dxpDispatchResult`. -/
structure DispatchResult where
  status : Terminal
  committedThrough : Nat
  reason : String
deriving DecidableEq, Repr

/-- How the reservation of one participant ends. -/
inductive ReserveOutcome where
  | held
  | unregistered
  | undecodable (err : String)
  | refused (err : String)

/-- What the goroutine of one participant has done with its store. -/
inductive Leg where
  | running
  | executed
  | committed
  | failed (err : String)
deriving DecidableEq, Repr

/-- Where the dispatcher is.  A loop over participants holds the one it is at and the rest. -/
inductive Phase where
  | reserving (p : ParticipantSpec) (rest : List ParticipantSpec)
  | validating (p : ParticipantSpec) (rest : List ParticipantSpec)
  | executing
  | marking (t : Terminal) (through : Nat) (reason : String)
  | postCommitting (through : Nat) (p : ParticipantSpec) (rest : List ParticipantSpec)
  | returned (result : Except String DispatchResult)
  | crashed

/-- An instance: its row, where its dispatcher is, what is durable and for which participants
`PostCommit` has been called. -/
structure Dispatch where
  row : TxnRow
  phase : Phase
  legs : List Leg
  postCommitted : List ParticipantSpec

/-- A step of the dispatcher, of one of its goroutines or of the sweeper, with what the called
code answers.  `storageError` is a failure of the instance's own database, after which the
dispatcher returns. -/
inductive DispatchCmd where
  | reserve (r : ReserveOutcome)
  | validate (err : Option String)
  | execute (i : Nat) (err : Option String)
  | commit (i : Nat) (err : Option String)
  | join (commitErr : Option String)
  | mark
  | postCommit
  | storageError (err : String)
  | crash
  | sweep (now : Int)
  | purge (retentionSecs now : Int)

/-- The number of participants whose effects are durable. -/
def durable (legs : List Leg) : Nat := legs.count .committed

/-- The barrier waits for this participant: on the phased path its commit is part of the
goroutine. -/
def Leg.inFlight (collapsed : Bool) : Leg → Bool
  | .running => true
  | .executed => !collapsed
  | .committed | .failed _ => false

namespace Dispatcher

variable (d : Dispatcher)

/-- The condition of the collapsed path. -/
def collapsed : Bool := d.collapseEligible && d.engineHomogeneous

/-- The refusal for an engine whose store is not supplied. -/
def missingStore (supplied : Bool) (e : Engine) (what : String) : Option String :=
  if supplied then none
  else (d.participants.find? fun p => dxpEngineOf p.primitive = some e).map fun p =>
    "participant " ++ p.id.quote ++ " needs " ++ what ++ " but none was supplied"

/-- All participants are validated: the routing of phase 3. -/
def attended : Phase :=
  if d.collapsed then .executing
  else
    match d.missingStore d.pebbleDB .pebble "a pebble-backed store" <|>
        d.missingStore d.locDB .sqlLoc "loc's own store" <|>
        d.missingStore d.objDB .sqlObj "obj's own store" with
    | some reason => .marking .released 0 reason
    | none => .executing

/-- The validation loop with these participants left. -/
def validateFrom : List ParticipantSpec → Phase
  | [] => d.attended
  | p :: rest => .validating p rest

/-- The reservation loop with these participants left. -/
def reserveFrom : List ParticipantSpec → Phase
  | [] => d.validateFrom d.participants
  | p :: rest => .reserving p rest

/-- `postCommitAll` with these participants left, and the result after it. -/
def postCommitFrom (through : Nat) : List ParticipantSpec → Phase
  | [] => .returned (.ok ⟨.committed, through, ""⟩)
  | p :: rest => .postCommitting through p rest

section

variable (p : ParticipantSpec)

/-- The text of a participant's error. -/
def participantError (err : String) : String := "participant " ++ p.id.quote ++ ": " ++ err

/-- After the reservation of one participant; anything but a claim is a refusal. -/
def reserved (rest : List ParticipantSpec) : ReserveOutcome → Phase
  | .held => d.reserveFrom rest
  | .unregistered =>
    .marking .released 0 ("no participant registered for primitive " ++ p.primitive.quote)
  | .undecodable err => .marking .released 0 err
  | .refused err => .marking .released 0 (participantError p err)

/-- After the validation of one participant. -/
def validated (rest : List ParticipantSpec) : Option String → Phase
  | none => d.validateFrom rest
  | some err => .marking .released 0 (participantError p err)

/-- What `Execute` leaves a goroutine with.  The phased path first needs an engine. -/
def executeResult (err : Option String) : Leg :=
  if d.collapsed = false ∧ dxpEngineOf p.primitive = none then
    .failed ("no engine registered for primitive " ++ p.primitive.quote)
  else
    match err with
    | some e => .failed e
    | none => .executed

end

/-- The goroutine of participant `i` executes. -/
def executeLeg (legs : List Leg) (i : Nat) (err : Option String) : List Leg :=
  match d.participants[i]?, legs[i]? with
  | some p, some .running => legs.set i (d.executeResult p err)
  | _, _ => legs

/-- On the phased path the goroutine of participant `i` then commits its own store. -/
def commitLeg (legs : List Leg) (i : Nat) (err : Option String) : List Leg :=
  match d.collapsed, legs[i]? with
  | false, some .executed =>
    legs.set i (match err with
      | some e => .failed e
      | none => .committed)
  | _, _ => legs

/-- The error of the first participant that failed. -/
def firstFailure (legs : List Leg) : Option String :=
  (d.participants.zip legs).findSome? fun x =>
    match x.2 with
    | .failed err => some (participantError x.1 err)
    | _ => none

variable (s : Dispatch)

/-- `dispatchCollapsed` after its barrier: a failure rolls the shared transaction back, and
otherwise the first participant's store commits it for all.  Without participants there is no
such store and the call panics. -/
def joinCollapsed (commitErr : Option String) : Dispatch :=
  match d.firstFailure s.legs with
  | some reason => { s with phase := .marking .expired 0 reason }
  | none =>
    match s.legs, commitErr with
    | [], _ => { s with phase := .crashed }
    | _ :: _, some err => { s with phase := .marking .expired 0 ("commit failed: " ++ err) }
    | _ :: _, none =>
      { s with
        legs := s.legs.map fun _ => .committed
        phase := .marking .committed d.participants.length "" }

/-- `dispatchPhased` after its barrier. -/
def joinPhased : Dispatch :=
  match d.firstFailure s.legs with
  | some reason => { s with phase := .marking .expired (durable s.legs) reason }
  | none => { s with phase := .marking .committed (durable s.legs) "" }

/-- The marking transaction and what follows it.  Only the marking as committed looks at
whether the row was still active. -/
def mark (t : Terminal) (through : Nat) (reason : String) : Dispatch :=
  let (ok, row) := s.row.markTerminal t through
  match t, ok with
  | .committed, true => { s with row := row, phase := postCommitFrom through d.participants }
  | .committed, false =>
    { s with phase := .returned (.error
        ("instance " ++ toString d.txnID ++ " was not active at commit time (unexpected)")) }
  | t, _ => { s with row := row, phase := .returned (.ok ⟨t, through, reason⟩) }

/-- One step; a command that the dispatcher is not at does nothing. -/
def step : DispatchCmd → Dispatch
  | .reserve r =>
    match s.phase with
    | .reserving p rest => { s with phase := d.reserved p rest r }
    | _ => s
  | .validate err =>
    match s.phase with
    | .validating p rest => { s with phase := d.validated p rest err }
    | _ => s
  | .execute i err =>
    match s.phase with
    | .executing => { s with legs := d.executeLeg s.legs i err }
    | _ => s
  | .commit i err =>
    match s.phase with
    | .executing => { s with legs := d.commitLeg s.legs i err }
    | _ => s
  | .join commitErr =>
    match s.phase with
    | .executing =>
      if s.legs.any (·.inFlight d.collapsed) then s
      else if d.collapsed then d.joinCollapsed s commitErr
      else d.joinPhased s
    | _ => s
  | .mark =>
    match s.phase with
    | .marking t through reason => d.mark s t through reason
    | _ => s
  | .postCommit =>
    match s.phase with
    | .postCommitting through p rest =>
      { s with postCommitted := s.postCommitted ++ [p], phase := postCommitFrom through rest }
    | _ => s
  | .storageError err =>
    match s.phase with
    | .executing | .marking .. => { s with phase := .returned (.error err) }
    | _ => s
  | .crash => { s with phase := .crashed }
  | .sweep now => { s with row := s.row.expire now }
  | .purge retentionSecs now => { s with row := s.row.purge retentionSecs now }

/-- The row is inserted and the dispatch begins. -/
def start (deadlineNs createdAt : Int) : Dispatch where
  row := .inserted deadlineNs createdAt
  phase := d.reserveFrom d.participants
  legs := d.participants.map fun _ => .running
  postCommitted := []

/-! ### What a step does -/

variable {d}

/-- The steps of the machine, each from where the dispatcher must be for it.  A command that
the dispatcher is not at, or that the barrier holds back, leaves the state. -/
inductive Taken (d : Dispatcher) (s : Dispatch) : DispatchCmd → Dispatch → Prop where
  | idle {c} : Taken d s c s
  | reserve {p rest} (r) (hph : s.phase = .reserving p rest) :
      Taken d s (.reserve r) { s with phase := d.reserved p rest r }
  | validate {p rest} (err) (hph : s.phase = .validating p rest) :
      Taken d s (.validate err) { s with phase := d.validated p rest err }
  | execute (i err) (hph : s.phase = .executing) :
      Taken d s (.execute i err) { s with legs := d.executeLeg s.legs i err }
  | commit (i err) (hph : s.phase = .executing) :
      Taken d s (.commit i err) { s with legs := d.commitLeg s.legs i err }
  | joinCollapsed (err) (hph : s.phase = .executing) (hd : d.collapsed = true) :
      Taken d s (.join err) (d.joinCollapsed s err)
  | joinPhased (err) (hph : s.phase = .executing) (hd : d.collapsed = false)
      (hjoin : s.legs.any (·.inFlight false) = false) : Taken d s (.join err) (d.joinPhased s)
  | mark {t through reason} (hph : s.phase = .marking t through reason) :
      Taken d s .mark (d.mark s t through reason)
  | postCommit {through p rest} (hph : s.phase = .postCommitting through p rest) :
      Taken d s .postCommit
        { s with postCommitted := s.postCommitted ++ [p], phase := postCommitFrom through rest }
  | storageError (err) : Taken d s (.storageError err) { s with phase := .returned (.error err) }
  | crash : Taken d s .crash { s with phase := .crashed }
  | sweep (now) : Taken d s (.sweep now) { s with row := s.row.expire now }
  | purge (retentionSecs now) :
      Taken d s (.purge retentionSecs now) { s with row := s.row.purge retentionSecs now }

theorem step_taken (c : DispatchCmd) : Taken d s c (d.step s c) := by
  cases c with
  | reserve r =>
    cases hph : s.phase <;> simp only [step, hph]
    case reserving => exact .reserve r hph
    all_goals exact .idle
  | validate err =>
    cases hph : s.phase <;> simp only [step, hph]
    case validating => exact .validate err hph
    all_goals exact .idle
  | execute i err =>
    cases hph : s.phase <;> simp only [step, hph]
    case executing => exact hph ▸ .execute i err hph
    all_goals exact .idle
  | commit i err =>
    cases hph : s.phase <;> simp only [step, hph]
    case executing => exact hph ▸ .commit i err hph
    all_goals exact .idle
  | join err =>
    cases hph : s.phase <;> simp only [step, hph]
    case executing =>
      split
      · exact .idle
      · rename_i hjoin
        split
        · exact .joinCollapsed err hph ‹_›
        · rename_i hd
          rw [Bool.not_eq_true] at hd
          rw [hd, Bool.not_eq_true] at hjoin
          exact .joinPhased err hph hd hjoin
    all_goals exact .idle
  | mark =>
    cases hph : s.phase <;> simp only [step, hph]
    case marking => exact .mark hph
    all_goals exact .idle
  | postCommit =>
    cases hph : s.phase <;> simp only [step, hph]
    case postCommitting => exact .postCommit hph
    all_goals exact .idle
  | storageError err =>
    cases hph : s.phase <;> simp only [step, hph]
    case executing | marking => exact .storageError err
    all_goals exact .idle
  | crash => exact .crash
  | sweep now => exact .sweep now
  | purge retentionSecs now => exact .purge retentionSecs now

/-- Where the reservations and validations lead: on in the loops, to the execution, or to a
release with nothing committed. -/
inductive Attending : Phase → Prop where
  | reserving (p rest) : Attending (.reserving p rest)
  | validating (p rest) : Attending (.validating p rest)
  | executing : Attending .executing
  | refused (reason) : Attending (.marking .released 0 reason)

theorem attending_attended : Attending d.attended := by
  unfold attended
  split
  · exact .executing
  · split
    · exact .refused _
    · exact .executing

theorem attending_validateFrom (l : List ParticipantSpec) : Attending (d.validateFrom l) := by
  cases l with
  | nil => exact attending_attended
  | cons p rest => exact .validating p rest

theorem attending_reserveFrom (l : List ParticipantSpec) : Attending (d.reserveFrom l) := by
  cases l with
  | nil => exact attending_validateFrom _
  | cons p rest => exact .reserving p rest

theorem attending_reserved (p : ParticipantSpec) (rest : List ParticipantSpec)
    (r : ReserveOutcome) : Attending (d.reserved p rest r) := by
  cases r with
  | held => exact attending_reserveFrom rest
  | unregistered | undecodable | refused => exact .refused _

theorem attending_validated (p : ParticipantSpec) (rest : List ParticipantSpec)
    (err : Option String) : Attending (d.validated p rest err) := by
  cases err with
  | none => exact attending_validateFrom rest
  | some err => exact .refused _

/-- What the collapsed path does behind its barrier. -/
theorem joinCollapsed_cases (commitErr : Option String) :
    (∃ reason, d.joinCollapsed s commitErr = { s with phase := .marking .expired 0 reason }) ∨
    d.joinCollapsed s commitErr = { s with phase := .crashed } ∨
    d.joinCollapsed s commitErr =
      { s with
        legs := s.legs.map fun _ => .committed
        phase := .marking .committed d.participants.length "" } := by
  unfold joinCollapsed
  split
  · exact .inl ⟨_, rfl⟩
  · split
    · exact .inr (.inl rfl)
    · exact .inl ⟨_, rfl⟩
    · exact .inr (.inr rfl)

/-- What the phased path does behind its barrier. -/
theorem joinPhased_cases :
    (∃ reason, d.joinPhased s = { s with phase := .marking .expired (durable s.legs) reason }) ∨
    (d.firstFailure s.legs = none ∧
      d.joinPhased s = { s with phase := .marking .committed (durable s.legs) "" }) := by
  unfold joinPhased
  split
  · exact .inl ⟨_, rfl⟩
  · exact .inr ⟨‹_›, rfl⟩

/-- The barriers write nothing to the row. -/
theorem row_joinCollapsed (commitErr : Option String) :
    (d.joinCollapsed s commitErr).row = s.row := by
  rcases joinCollapsed_cases s commitErr with ⟨reason, hj⟩ | hj | hj <;> rw [hj]

theorem row_joinPhased : (d.joinPhased s).row = s.row := by
  rcases joinPhased_cases s with ⟨reason, hj⟩ | ⟨-, hj⟩ <;> rw [hj]

/-- The marking writes the outcome to an active row; a row that has ended it leaves alone, and
then the dispatcher returns. -/
theorem mark_cases (t : Terminal) (through : Nat) (reason : String) :
    (s.row.deleted = false ∧ s.row.status = .active ∧
      d.mark s t through reason =
        { s with
          row := { s.row with status := .ended t, committedThrough := through }
          phase := if t = .committed then postCommitFrom through d.participants
            else .returned (.ok ⟨t, through, reason⟩) }) ∨
    (¬ (s.row.deleted = false ∧ s.row.status = .active) ∧
      ∃ r, d.mark s t through reason = { s with phase := .returned r }) := by
  by_cases hact : s.row.deleted = false ∧ s.row.status = .active
  · refine .inl ⟨hact.1, hact.2, ?_⟩
    cases t <;> simp [mark, TxnRow.markTerminal, hact]
  · refine .inr ⟨hact, ?_⟩
    cases t <;> simp [mark, TxnRow.markTerminal, hact]

end Dispatcher

end Xolu.Server
