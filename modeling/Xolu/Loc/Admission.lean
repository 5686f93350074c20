/-
# Moves (pkg/loc/admission.go)

`Move` reassigns a subject to another location.  One transaction enters the leaf, exits the
one before, exits and enters fences, writes the assignment and one journal row; the first
guarded update that matches no row refuses the whole.  Which fences are crossed is read off
the tree beforehand, as the set difference of the fences around the two leaves, unless the
caller gives keys.

`Moved` says all that an admitted move does, and a refused one changes nothing (`move_spec`);
everything else about moves is derived from this.
-/
import Xolu.Lib.Run
import Xolu.Loc.Store

namespace Xolu.Loc

open Keyed Runs Tally Prod Except

/-- `MoveParams`; a slice that is nil is `none`. -/
structure MoveParams where
  subjectRef : String
  toLocationID : String
  enteredFenceKeys : Option (List Nat)
  exitedFenceKeys : Option (List Nat)
deriving DecidableEq, Repr

/-- The elements of a slice. -/
def elems (keys : Option (List Nat)) : List Nat := keys.getD []

/-- The fences a move enters. -/
def MoveParams.entered (p : MoveParams) : List Nat := elems p.enteredFenceKeys

/-- The fences a move exits. -/
def MoveParams.exited (p : MoveParams) : List Nat := elems p.exitedFenceKeys

@[simp] theorem elems_slice (keys : List Nat) : elems (slice keys) = keys := by
  unfold elems slice
  split_ifs with h
  · exact h.symm
  · rfl

/-- A journal row for a move. -/
def moveRow {F : Type} (p : MoveParams) (fromKey : Option Nat) (toKey : Nat) : JournalRow F where
  subjectRef := p.subjectRef
  kind := .move
  fromLocationKey := fromKey
  toLocationKey := some toKey
  reportLat := none
  reportLon := none
  reportAlt := none
  enteredFenceKeys := p.enteredFenceKeys
  exitedFenceKeys := p.exitedFenceKeys

namespace Tables

variable {F G : Type}

/-! ### The fences that a move crosses -/

/-- The fences around the leaf that a subject is at. -/
def originFences (t : Tables F G) (subject : String) : List Nat :=
  (t.assigned subject).elim [] t.treeAlignedFenceKeys

def treeAlignedFenceDelta (o : MapOrder) (subject toLocationID : String) (t : Tables F G) :
    Except LocError (Option (List Nat) × Option (List Nat)) :=
  match t.locationByID toLocationID with
  | none => .error (.unknownLocation toLocationID)
  | some l =>
    let (entered, exited) := delta o (t.treeAlignedFenceKeys l.key) (t.originFences subject)
    .ok (slice entered, slice exited)

/-- The parameters with the derived delta, if the caller gives no keys. -/
def withDelta (o : MapOrder) (p : MoveParams) (t : Tables F G) : Except LocError MoveParams :=
  if p.entered = [] ∧ p.exited = [] then
    match t.treeAlignedFenceDelta o p.subjectRef p.toLocationID with
    | .error e => .error e
    | .ok (entered, exited) =>
      .ok { p with enteredFenceKeys := entered, exitedFenceKeys := exited }
  else .ok p

variable {o : MapOrder} {t : Tables F G}

/-- The delta changes neither the subject nor the destination; where the caller gives no keys it
is derived. -/
theorem withDelta_spec {p : MoveParams} {r : Except LocError MoveParams}
    (h : t.withDelta o p = r) :
    match r with
    | .error e => t.locationByID p.toLocationID = none ∧ e = .unknownLocation p.toLocationID
    | .ok p' => (p'.subjectRef = p.subjectRef ∧ p'.toLocationID = p.toLocationID) ∧
      (p.entered = [] ∧ p.exited = [] → ∃ l, t.locationByID p.toLocationID = some l ∧
        p'.enteredFenceKeys =
          slice (delta o (t.treeAlignedFenceKeys l.key) (t.originFences p.subjectRef)).1 ∧
        p'.exitedFenceKeys =
          slice (delta o (t.treeAlignedFenceKeys l.key) (t.originFences p.subjectRef)).2) := by
  unfold withDelta treeAlignedFenceDelta at h
  split_ifs at h with hnil
  · rcases hl : t.locationByID p.toLocationID with - | l
    · rw [hl] at h
      subst h
      exact ⟨rfl, rfl⟩
    · rw [hl] at h
      subst h
      exact ⟨⟨rfl, rfl⟩, fun _ => ⟨l, rfl, rfl, rfl⟩⟩
  · subst h
    exact ⟨⟨rfl, rfl⟩, fun hnil' => absurd hnil' hnil⟩

variable {e : LocError}

/-! ### The transaction -/

/-- The counters of the locations replaced. -/
def setCapacity (t : Tables F G) (rows : List (Counter Nat))
    (hrows : rows.map Counter.key = t.capacity.map Counter.key) : Tables F G :=
  { t with capacity := rows, capacityKeys := t.capacityKeys.of_keys hrows }

/-- The entry CAS of a leaf, which finds the location by its id. -/
def enterLeaf (toLocationID : String) (t : Tables F G) : Except LocError Nat × Tables F G :=
  match t.locationByID toLocationID with
  | none => (.error (.unknownLocation toLocationID), t)
  | some l =>
    match h : enter t.capacity l.key with
    | none => (.error (.capacity .leaf (uint32 l.key)), t)
    | some rows => (.ok l.key, t.setCapacity rows (keys_adjust h))

/-- The exit CAS of the leaf before, if there is one. -/
def exitLeaf (fromKey : Option Nat) (t : Tables F G) : Except LocError Unit × Tables F G :=
  match fromKey with
  | none => (.ok (), t)
  | some k =>
    match h : leave t.capacity k with
    | none => (.error (.invariant .leaf k), t)
    | some rows => (.ok (), t.setCapacity rows (keys_adjust h))

/-- The exits from fences. -/
def exitFences (keys : List Nat) (t : Tables F G) : Except LocError Unit × Tables F G :=
  ((leaveAll keys t.fenceCapacity).1.mapError (.invariant .fence),
    t.setFences (leaveAll keys t.fenceCapacity).2 t.membership (keys_leaveAll ..) t.membershipKeys)

/-- The entries into fences. -/
def entryFences (keys : List Nat) (t : Tables F G) : Except LocError Unit × Tables F G :=
  ((enterAll keys t.fenceCapacity).1.mapError (.capacity .fence),
    t.setFences (enterAll keys t.fenceCapacity).2 t.membership (keys_enterAll ..) t.membershipKeys)

/-- The assignment of a subject written. -/
def assign (t : Tables F G) (subject : String) (key : Nat) : Tables F G :=
  { t with
    assignment := upsert fst t.assignment (subject, key)
    assignmentKeys := t.assignmentKeys.upsert }

def moveInTx (p : MoveParams) (t : Tables F G) : Except LocError Nat × Tables F G :=
  match enterLeaf p.toLocationID t with
  | (.error e, t) => (.error e, t)
  | (.ok toKey, t) =>
    let fromKey := t.assigned p.subjectRef
    match exitLeaf fromKey t with
    | (.error e, t) => (.error e, t)
    | (.ok _, t) =>
      match exitFences p.exited t with
      | (.error e, t) => (.error e, t)
      | (.ok _, t) =>
        match entryFences p.entered t with
        | (.error e, t) => (.error e, t)
        | (.ok _, t) =>
          (.ok toKey, (t.assign p.subjectRef toKey).append (moveRow p fromKey toKey))

def move (o : MapOrder) (p : MoveParams) (t : Tables F G) : Except LocError Unit × Tables F G :=
  if p.subjectRef = "" then (.error (.validation "subject_ref is required"), t)
  else
    match t.withDelta o p with
    | .error e => (.error e, t)
    | .ok p =>
      match atomically (moveInTx p) t with
      | (.error e, t) => (.error e, t)
      | (.ok _, t) => (.ok (), t)

/-! ### What a move does -/

/-- The counters of the locations when the leaf before is exited. -/
def exitCounter (rows : List (Counter Nat)) : Option Nat → Option (List (Counter Nat))
  | none => some rows
  | some k => leave rows k

/-- What an admitted move does. -/
structure Moved (t : Tables F G) (p : MoveParams) (l : Location F) (t' : Tables F G) : Prop where
  destination : t.locationByID p.toLocationID = some l
  capacity : ∃ rows, enter t.capacity l.key = some rows ∧
    exitCounter rows (t.assigned p.subjectRef) = some t'.capacity
  leaveAll_ok : (leaveAll p.exited t.fenceCapacity).1 = .ok ()
  enterAll_ok : (enterAll p.entered (leaveAll p.exited t.fenceCapacity).2).1 = .ok ()
  fenceCapacity : t'.fenceCapacity = (enterAll p.entered (leaveAll p.exited t.fenceCapacity).2).2
  assignment : t'.assignment = upsert fst t.assignment (p.subjectRef, l.key)
  journal : t'.journal = t.journal ++ [moveRow p (t.assigned p.subjectRef) l.key]
  locations : t'.locations = t.locations
  fences : t'.fences = t.fences
  rtree : t'.rtree = t.rtree
  membership : t'.membership = t.membership

variable {t : Tables F G} {p : MoveParams}

theorem enterLeaf_cases (id : String) (t : Tables F G) :
    (t.locationByID id = none ∧ enterLeaf id t = (.error (.unknownLocation id), t)) ∨
      ∃ l, t.locationByID id = some l ∧
        (enter t.capacity l.key = none ∧
            enterLeaf id t = (.error (.capacity .leaf (uint32 l.key)), t) ∨
          ∃ rows hrows, enter t.capacity l.key = some rows ∧
            enterLeaf id t = (.ok l.key, t.setCapacity rows hrows)) := by
  unfold enterLeaf
  rcases t.locationByID id with - | l
  · exact .inl ⟨rfl, rfl⟩
  refine .inr ⟨l, rfl, ?_⟩
  dsimp only
  split
  · next hfull => exact .inl ⟨hfull, rfl⟩
  · next rows hrows => exact .inr ⟨rows, keys_adjust hrows, hrows, rfl⟩

theorem exitLeaf_cases (fromKey : Option Nat) (t : Tables F G) :
    (∃ k, fromKey = some k ∧ leave t.capacity k = none ∧
        exitLeaf fromKey t = (.error (.invariant .leaf k), t)) ∨
      ∃ rows hrows, exitCounter t.capacity fromKey = some rows ∧
        exitLeaf fromKey t = (.ok (), t.setCapacity rows hrows) := by
  unfold exitLeaf
  cases fromKey with
  | none => exact .inr ⟨t.capacity, rfl, rfl, rfl⟩
  | some k =>
    dsimp only
    split
    · next hnone => exact .inl ⟨k, rfl, hnone, rfl⟩
    · next rows hrows => exact .inr ⟨rows, keys_adjust hrows, hrows, rfl⟩

/-- **A move** is admitted, or it fails at one of its guards. -/
theorem moveInTx_cases (p : MoveParams) (t : Tables F G) :
    (∃ l, (moveInTx p t).1 = .ok l.key ∧ Moved t p l (moveInTx p t).2) ∨
    ∃ e, (moveInTx p t).1 = .error e ∧
      ((t.locationByID p.toLocationID = none ∧ e = .unknownLocation p.toLocationID) ∨
      ∃ l, t.locationByID p.toLocationID = some l ∧
        ((enter t.capacity l.key = none ∧ e = .capacity .leaf (uint32 l.key)) ∨
        (∃ rows k, enter t.capacity l.key = some rows ∧ t.assigned p.subjectRef = some k ∧
          leave rows k = none ∧ e = .invariant .leaf k) ∨
        (∃ k, (leaveAll p.exited t.fenceCapacity).1 = .error k ∧ e = .invariant .fence k) ∨
        ∃ k, (enterAll p.entered (leaveAll p.exited t.fenceCapacity).2).1 = .error k ∧
          e = .capacity .fence k)) := by
  unfold moveInTx
  rcases enterLeaf_cases p.toLocationID t with ⟨hl, heq⟩ |
    ⟨l, hl, ⟨hfull, heq⟩ | ⟨rows, hrows, henter, heq⟩⟩
  · rw [heq]
    exact .inr ⟨_, rfl, .inl ⟨hl, rfl⟩⟩
  · rw [heq]
    exact .inr ⟨_, rfl, .inr ⟨l, hl, .inl ⟨hfull, rfl⟩⟩⟩
  rw [heq]
  dsimp only
  rcases exitLeaf_cases ((t.setCapacity rows hrows).assigned p.subjectRef)
    (t.setCapacity rows hrows) with ⟨k, hk, hnone, heq⟩ | ⟨rows', hrows', hexit, heq⟩
  · rw [heq]
    exact .inr ⟨_, rfl, .inr ⟨l, hl, .inr (.inl ⟨rows, k, henter, hk, hnone, rfl⟩)⟩⟩
  rw [heq]
  -- neither has touched the counters of the fences
  simp only [exitFences, entryFences, setFences, setCapacity]
  rcases hleave : (leaveAll p.exited t.fenceCapacity).1 with k | u
  · exact .inr ⟨_, rfl, .inr ⟨l, hl, .inr (.inr (.inl ⟨k, rfl, rfl⟩))⟩⟩
  rcases henterAll : (enterAll p.entered (leaveAll p.exited t.fenceCapacity).2).1 with k | u'
  · simp only [Except.mapError, henterAll]
    exact .inr ⟨_, rfl, .inr ⟨l, hl, .inr (.inr (.inr ⟨k, rfl, rfl⟩))⟩⟩
  · simp only [Except.mapError, henterAll]
    exact .inl ⟨l, rfl, {
      destination := hl
      capacity := ⟨rows, henter, hexit⟩
      leaveAll_ok := hleave
      enterAll_ok := henterAll
      fenceCapacity := rfl
      assignment := rfl
      journal := rfl
      locations := rfl
      fences := rfl
      rtree := rfl
      membership := rfl }⟩

/-- An admitted move. -/
theorem moved_of_moveInTx {key : Nat} (h : (moveInTx p t).1 = .ok key) :
    ∃ l, Moved t p l (moveInTx p t).2 := by
  rcases moveInTx_cases p t with ⟨l, -, hmoved⟩ | ⟨e, he, -⟩
  · exact ⟨l, hmoved⟩
  · rw [he] at h
    cases h

/-- **A move** that is refused changes nothing, and is refused for its parameters or in its
transaction; an admitted one does what its parameters say, with the delta if the caller gives
none. -/
theorem move_spec {r : Except LocError Unit} (h : (t.move o p).1 = r) :
    match (motive := Except LocError Unit → Prop) r with
    | .error e => (t.move o p).2 = t ∧ ((p.subjectRef = "" ∧ ∃ d, e = .validation d) ∨
      (t.locationByID p.toLocationID = none ∧ e = .unknownLocation p.toLocationID) ∨
      ∃ p', t.withDelta o p = .ok p' ∧ (moveInTx p' t).1 = .error e)
    | .ok _ => p.subjectRef ≠ "" ∧ ∃ p' l, t.withDelta o p = .ok p' ∧
      Moved t p' l (t.move o p).2 := by
  subst h
  unfold move
  split_ifs with hs
  · exact ⟨rfl, .inl ⟨hs, _, rfl⟩⟩
  rcases hd : t.withDelta o p with e | p'
  · exact ⟨rfl, .inr (.inl (withDelta_spec hd))⟩
  dsimp only
  rcases htx : atomically (moveInTx p') t with ⟨e | key, t'⟩
  · have hfst := fst_atomically (moveInTx p') t
    have hsnd := atomically_error (congrArg fst htx)
    rw [htx] at hfst hsnd
    exact ⟨hsnd, .inr (.inr ⟨p', rfl, hfst.symm⟩)⟩
  · have heq := atomically_ok (congrArg fst htx)
    rw [htx] at heq
    obtain ⟨l, hmoved⟩ := moved_of_moveInTx (congrArg fst heq)
    rw [heq] at hmoved
    exact ⟨hs, p', l, rfl, hmoved⟩

end Tables

end Xolu.Loc
