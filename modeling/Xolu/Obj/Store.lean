/-
# Subjects and their positions (pkg/obj)

Each attached subject has a row with its capacity and the count of its contents, and a row with its
position: at a leaf of /loc, inside another subject, or unassigned.  The container reference of a
position is the containment itself; no other table has it.  Every change appends to the journal.

A transaction is a function to `Except`: an error is a rollback.  `Move` and `Detach` read before
their transaction opens, so each is in two parts, `admitMove` and `relocateInTx`, `admitDetach` and
`detachInTx`.  The graph that mirrors the containment is derived and is left out, as are the times.
-/
import Xolu.Graphalgo.Cycle
import Xolu.Loc.Store

namespace Xolu.Obj

open List Graphalgo Keyed Loc

/-! ### Rows -/

/-- Nowhere, at a leaf of /loc, or in another subject. -/
inductive PositionKind where
  | unassigned
  | locLeaf
  | obj
deriving DecidableEq, Repr

/-- The name of a kind in the tables and on the wire. -/
def PositionKind.name : PositionKind → String
  | .unassigned => ""
  | .locLeaf => "loc_leaf"
  | .obj => "obj"

/-- The kind of a name, if it is the name of one. -/
def PositionKind.ofName (name : String) : Option PositionKind :=
  [.unassigned, .locLeaf, .obj].find? (·.name = name)

/-- The ceilings of a `Capacity`. -/
structure Capacity (F : Type) where
  maxWeightKg : Option F
  maxVolumeM3 : Option F
  maxCount : Option Int
deriving DecidableEq, Repr

/-- A row of `obj_subjects`. -/
structure Subject (F : Type) where
  ref : String
  capacity : Capacity F
  curCount : Int
  retired : Bool
deriving DecidableEq, Repr

/-- The ceiling leaves room for one more. -/
def Subject.HasRoom {F : Type} (x : Subject F) : Prop :=
  ∀ m ∈ x.capacity.maxCount, x.curCount + 1 ≤ m
deriving Decidable

/-- A row of `obj_position`; it names a container if and only if its kind says so. -/
structure Position where
  subjectRef : String
  kind : PositionKind
  locLeafID : Option String
  containsRef : Option String
  contained_iff : containsRef.isSome ↔ kind = .obj
deriving DecidableEq, Repr

/-- The kinds of a journal row. -/
inductive JournalKind where
  | attach
  | move
  | detach
  | retire
deriving DecidableEq, Repr

/-- The rows that say where a subject is. -/
def JournalKind.positions : JournalKind → Bool
  | .attach | .move => true
  | .detach | .retire => false

/-- A row of `obj_journal`. -/
structure JournalRow where
  subjectRef : String
  kind : JournalKind
  positionKind : Option PositionKind
  locLeafID : Option String
  containerRef : Option String
deriving DecidableEq, Repr

/-- An empty text is stored as NULL. -/
def nullableString (s : String) : Option String := if s = "" then none else some s

/-- The row that `journalEntry` appends. -/
def journalEntry (subjectRef : String) (kind : JournalKind) (positionKind : PositionKind)
    (locLeafID containerRef : String) : JournalRow where
  subjectRef := subjectRef
  kind := kind
  -- also an unassigned position is written; NULL stands for no position
  positionKind := if kind.positions then some positionKind else none
  locLeafID := nullableString locLeafID
  containerRef := nullableString containerRef

/-- Which half of the condition of `Detach` fails. -/
inductive DetachReason where
  | positioned
  | occupied
deriving DecidableEq, Repr

/-- The errors. -/
inductive ObjError where
  | validation (detail : String)
  | alreadyAttached (ref : String)
  | notAttached (ref : String)
  | containerNotAttached (ref : String)
  /-- At capacity, on the dimension count. -/
  | capacity (ref : String)
  | containmentCycle (ref container : String)
  | detachRefused (ref : String) (reason : DetachReason)
  | demoteRefused (ref : String)
  | retireRefused (ref : String)
  | alreadyRetired (ref : String)
  | capacityInvalid (ref : String)
  /-- An error of /loc, passed through. -/
  | loc (e : LocError)
  | noRows
  | tenantMismatch (tenant : String)
  | emptyRef
  | noPending (txn participantID : String)
deriving DecidableEq, Repr

/-! ### Tables -/

/-- The tables of a tenant.  Every subject has its position, from the transaction that attaches it
to the one that detaches it. -/
structure Tables (F : Type) where
  subjects : List (Subject F)
  positions : List Position
  journal : List JournalRow
  keys : UniqueKey Subject.ref subjects
  positioned : positions.map Position.subjectRef = subjects.map Subject.ref

namespace Tables

variable {F : Type}

/-- `Init`. -/
def empty : Tables F := ⟨[], [], [], nodup_nil, rfl⟩

section

variable (t : Tables F)

section

variable (ref : String)

/-- The row of a subject. -/
def subject : Option (Subject F) := t.subjects.find? fun x => decide (x.ref = ref)

/-- The position of a subject. -/
def position : Option Position := t.positions.find? fun p => decide (p.subjectRef = ref)

/-- The subject is attached. -/
def Attached : Prop := ref ∈ t.subjects.map Subject.ref
deriving Decidable

/-- `txContainerOf`. -/
def containerOf : Option String := (t.position ref).bind Position.containsRef

/-- The number of subjects whose container reference names the subject. -/
def contentsCount : Nat := t.positions.countP fun p => decide (p.containsRef = some ref)

/-- `Get`: a subject with its position. -/
def get : Except ObjError (Subject F × Position) :=
  match t.subject ref with
  | none => .error (.notAttached ref)
  | some x =>
    match t.position ref with
    | none => .error .noRows
    | some p => .ok (x, p)

end

end

/-! ### Writes -/

section

variable (t : Tables F)

/-- A row appended to the journal. -/
def append (row : JournalRow) : Tables F := { t with journal := t.journal ++ [row] }

/-- The columns of a subject updated, except its reference. -/
def alter (ref : String) (f : Subject F → Subject F) (hf : ∀ x, (f x).ref = x.ref) : Tables F :=
  have hrefs : ∀ x, (if x.ref = ref then f x else x).ref = x.ref := fun x => by
    split
    · exact hf x
    · rfl
  { t with
    subjects := t.subjects.map fun x => if x.ref = ref then f x else x
    keys := t.keys.map_of_key hrefs
    positioned := by
      rw [map_map]
      exact t.positioned.trans (map_congr_left fun x _ => (hrefs x).symm) }

/-- `cur_count = cur_count + d`. -/
def charge (ref : String) (d : Int) : Tables F :=
  t.alter ref (fun x => { x with curCount := x.curCount + d }) fun _ => rfl

/-- The count of the container of a subject, if it is in one, goes down. -/
def relinquish (ref : String) : Tables F :=
  match t.containerOf ref with
  | none => t
  | some prev => t.charge prev (-1)

/-- The position of a subject overwritten. -/
def setPosition (p : Position) : Tables F :=
  { t with
    positions := put Position.subjectRef t.positions p
    positioned := map_key_put.trans t.positioned }

/-- Both rows of a new subject. -/
def insert (ref : String) (capacity : Capacity F) (h : ¬ t.Attached ref) : Tables F :=
  { t with
    subjects := t.subjects ++ [⟨ref, capacity, 0, false⟩]
    positions := t.positions ++ [⟨ref, .unassigned, none, none, by simp⟩]
    keys := t.keys.concat fun _ hx heq => h (mem_map.mpr ⟨_, hx, heq⟩)
    positioned := by rw [map_append, map_append, t.positioned]; rfl }

/-- Both rows of a subject deleted. -/
def remove (ref : String) : Tables F :=
  { t with
    subjects := t.subjects.filter (·.ref ≠ ref)
    positions := t.positions.filter (·.subjectRef ≠ ref)
    keys := List.Nodup.sublist (filter_sublist.map _) t.keys
    positioned := by
      have h := congrArg (List.filter (· ≠ ref)) t.positioned
      rwa [filter_map, filter_map] at h }

end

/-! ### Transactions -/

variable (t : Tables F)

/-- A subject enters with a position of no kind and a journal row. -/
def attachInTx (ref : String) (capacity : Capacity F) : Except ObjError (Tables F) :=
  if h : t.Attached ref then .error (.alreadyAttached ref)
  else .ok ((t.insert ref capacity h).append (journalEntry ref .attach .unassigned "" ""))

/-- `Attach`. -/
def attach (ref : String) (capacity : Capacity F) : Except ObjError (Tables F) :=
  if ref = "" then .error (.validation "subject is required") else t.attachInTx ref capacity

/-- How many subjects the search for a cycle may visit. -/
def cycleCheckLimit : Nat := 5000

/-- The search for a cycle, from the container on. -/
def cycleSearch (ref container : String) : Option (Except Empty Bool) :=
  wouldCreateCycle ref cycleCheckLimit (fun r => .ok (t.containerOf r).toList) container
    (cycleCheckLimit + 1)

/-- A subject has one container, so that the limit ends the search. -/
theorem exists_cycleSearch (ref container : String) :
    ∃ b, t.cycleSearch ref container = some (.ok b) :=
  exists_wouldCreateCycle_chain (by decide)

/-- The writes of `moveToContainerInTx`. -/
def place (ref container : String) : Tables F :=
  (((t.charge container 1).relinquish ref).setPosition
    ⟨ref, .obj, none, some container, by simp⟩).append (journalEntry ref .move .obj "" container)

/-- The guarded update of the container, the search for a cycle, and the writes. -/
def moveToContainerInTx (ref container : String) : Except ObjError (Tables F) :=
  match t.subject container with
  -- `diagnoseContainerRefusal` tells the two refusals of the guarded update apart
  | none => .error (.containerNotAttached container)
  | some x =>
    if ¬ x.HasRoom then .error (.capacity container)
    else if t.cycleSearch ref container ≠ some (.ok false) then
      .error (.containmentCycle ref container)
    else if ¬ t.Attached ref then .error (.notAttached ref)
    else .ok (t.place ref container)

/-- `Move` into a container. -/
def moveToContainer (ref container : String) : Except ObjError (Tables F) :=
  if ref = container then .error (.containmentCycle ref container)
  else t.moveToContainerInTx ref container

end Tables

/-- The target of a `Move`, as the request gives it. -/
structure MoveTarget where
  kind : String
  locLeafID : String
  containerRef : String
deriving DecidableEq, Repr

/-- A `Move` whose reads are made; it does not go into a container. -/
structure Relocation where
  subjectRef : String
  kind : PositionKind
  locLeafID : String
  plain : kind ≠ .obj
deriving DecidableEq, Repr

/-- The position that a `Move` writes. -/
def Relocation.position (r : Relocation) : Position :=
  ⟨r.subjectRef, r.kind, nullableString r.locLeafID, none, by simp [r.plain]⟩

namespace Tables

variable {F : Type}

section

variable (t : Tables F)

/-- `Move` up to its transaction, for a target that is not a container.  `verdict` is what /loc
says of a move to a leaf. -/
def admitMove (ref : String) (target : MoveTarget)
    (verdict : Except LocError Unit) : Except ObjError Relocation :=
  match t.get ref with
  | .error e => .error e
  | .ok _ =>
    match PositionKind.ofName target.kind with
    | some .locLeaf =>
      if target.locLeafID = "" then .error (.validation "loc_leaf move requires location_id")
      else
        match verdict with
        | .error e => .error (.loc e)
        | .ok () => .ok ⟨ref, .locLeaf, target.locLeafID, nofun⟩
    | some .unassigned => .ok ⟨ref, .unassigned, target.locLeafID, nofun⟩
    | _ => .error (.validation s!"unknown move target kind {target.kind.quote}")

/-- The transaction of `Move`.  The update may match no row; the journal row is always written. -/
def relocateInTx (r : Relocation) : Tables F :=
  (t.setPosition r.position).append (journalEntry r.subjectRef .move r.kind r.locLeafID "")

section

variable (ref : String)

/-- `Detach` up to its transaction.  The contents are not looked at. -/
def admitDetach : Except ObjError Unit :=
  match t.get ref with
  | .error e => .error e
  | .ok (_, p) =>
    if p.kind ≠ .unassigned then .error (.detachRefused ref .positioned) else .ok ()

/-- The rows deleted, and a journal row. -/
def detached : Tables F := (t.remove ref).append (journalEntry ref .detach .unassigned "" "")

/-- The transaction of `Detach`. -/
def detachInTx : Except ObjError (Tables F) :=
  if ¬ t.Attached ref then .error (.notAttached ref) else .ok (t.detached ref)

/-- An empty subject leaves its container and the store. -/
def unassignAndDetachInTx : Except ObjError (Tables F) :=
  if ¬ t.Attached ref then .error (.notAttached ref)
  else if 0 < t.contentsCount ref then .error (.demoteRefused ref)
  else .ok ((t.relinquish ref).detached ref)

end

/-- A subject enters the store and a container. -/
def attachAndContainInTx (ref container : String) (capacity : Capacity F) :
    Except ObjError (Tables F) :=
  if ref = container then .error (.containmentCycle ref container)
  else
    match t.attachInTx ref capacity with
    | .error e => .error e
    | .ok t => t.moveToContainerInTx ref container

/-- The writes of `Retire`. -/
def retired (ref : String) : Tables F :=
  (t.alter ref (fun x => { x with retired := true }) fun _ => rfl).append
    (journalEntry ref .retire .unassigned "" "")

/-- `Retire`: only an empty subject, and only once. -/
def retire (ref : String) : Except ObjError (Tables F) :=
  match t.subject ref with
  -- `diagnoseRetireRefusal` tells the two refusals of the guarded update apart
  | none => .error (.notAttached ref)
  | some x =>
    if x.retired then .error (.alreadyRetired ref)
    else if 0 < t.contentsCount ref then .error (.retireRefused ref)
    else .ok (t.retired ref)

/-- The write of `SetCapacity`. -/
def withCapacity (ref : String) (capacity : Capacity F) : Tables F :=
  t.alter ref (fun x => { x with capacity := capacity }) fun _ => rfl

/-- `SetCapacity`; at least one of the bounds is given. -/
def setCapacity (ref : String) (capacity : Capacity F) : Except ObjError (Tables F) :=
  if capacity.maxWeightKg.isNone ∧ capacity.maxVolumeM3.isNone ∧ capacity.maxCount.isNone then
    .error (.capacityInvalid ref)
  else if ¬ t.Attached ref then .error (.notAttached ref)
  else .ok (t.withCapacity ref capacity)

end

end Tables

end Xolu.Obj
