/-
# Locations, fences and their tables (pkg/loc/model.go, pkg/loc/store.go)

Locations form trees; a subject is assigned to one of them.  A fence may be aligned to a
location and then goes around its subtree, and it may have a geometry, in which reported
coordinates lie or do not.  Locations and fences count the subjects that are in them, up to an
optional ceiling, and a journal records what moved.

Coordinates are of a type `F` with an equality test and an order test, as float64 has, and
shapes of a type `G`; nothing is assumed about either.  The constraints of the tables are
fields of `Tables`, and so is what no operation breaks: a parent has a smaller key than its
children, so that the walk up the tree ends and finds what the parent links reach.
-/
import Xolu.Lib.Tally
import Mathlib.Data.List.Dedup
import Mathlib.Data.List.MinMax

namespace Xolu.Loc

open List Keyed Tally

structure GeoAnchor (F : Type) where
  lat : F
  lon : F
  alt : F
  trueNorth : F
deriving DecidableEq, Repr

structure Placement (F : Type) where
  offsetX : F
  offsetY : F
  offsetZ : F
  rotation : F
  anchor : Option (GeoAnchor F)
deriving DecidableEq, Repr

structure LocationDef (F : Type) where
  id : String
  parentID : Option String
  name : String
  postable : Bool
  placement : Placement F
deriving DecidableEq, Repr

/-- A row of `locations`. -/
structure Location (F : Type) where
  key : Nat
  id : String
  parentKey : Option Nat
  name : String
  postable : Bool
  placement : Placement F
deriving DecidableEq, Repr

/-- A box of coordinates. -/
structure Box (F : Type) where
  minLat : F
  minLon : F
  maxLat : F
  maxLon : F
deriving DecidableEq, Repr

/-- Why `SetFenceGeometry` refuses a shape. -/
inductive GeometryFault where
  | negativeRadius
  | selfIntersecting
deriving DecidableEq, Repr

/-- `Geometry`, with the checks that are made before a shape is stored. -/
class Geometry (F : outParam Type) (G : Type) where
  fault : G → Option GeometryFault
  boundingBox : G → Box F
  contains : G → F → F → Bool

/-- A row of `fences`. -/
structure Fence (G : Type) where
  key : Nat
  id : String
  alignedLocationKey : Option Nat
  geometry : Option G
deriving DecidableEq, Repr

/-- The kind of a journal row. -/
inductive JournalKind where
  | move
  | report
  | anchor
deriving DecidableEq, Repr

/-- A row of `loc_journal`; the rows stand in the order of their entry ids.  A list of fence keys
is `none` where it is the JSON value null, as a nil slice is written. -/
structure JournalRow (F : Type) where
  subjectRef : String
  kind : JournalKind
  fromLocationKey : Option Nat
  toLocationKey : Option Nat
  reportLat : Option F
  reportLon : Option F
  reportAlt : Option F
  enteredFenceKeys : Option (List Nat)
  exitedFenceKeys : Option (List Nat)
deriving DecidableEq, Repr

/-- What a `CapacityError` is about. -/
inductive CapacityKind where
  | leaf
  | fence
deriving DecidableEq, Repr

/-- The exit at which an `InvariantError` is raised. -/
inductive ExitKind where
  | leaf
  | fence
  | report
deriving DecidableEq, Repr

/-- Why an operation of the package fails. -/
inductive LocError where
  | validation (detail : String)
  | rootAnchor (location : String)
  | duplicateLocation (location : String)
  | unknownLocation (location : String)
  | capacityOnNonPostable (location : String)
  | duplicateFence (fence : String)
  | unknownFence (fence : String)
  | geometry (fence : String) (fault : GeometryFault)
  | capacity (kind : CapacityKind) (key : Nat)
  | invariant (exit : ExitKind) (key : Nat)
  /-- A constraint of a table is violated. -/
  | constraint (table : String)
  /-- A fence that the R-tree names is not there. -/
  | noRows (fence : Nat)
  /-- A reservation without a subject or a destination. -/
  | emptyMove
  | tenantMismatch (tenant : String)
  | noPending (txn participant : String)
deriving DecidableEq, Repr

/-- The conversion of a key to `FenceKey`. -/
def uint32 (n : Nat) : Nat := n % 4294967296

/-- The next key of a table, one above the largest. -/
def nextKey (keys : List Nat) : Nat := keys.foldr max 0 + 1

theorem lt_nextKey {keys : List Nat} {k : Nat} (h : k ∈ keys) : k < nextKey keys :=
  Nat.lt_succ_of_le (le_max_of_le' 0 h le_rfl)

/-! ### The tables -/

/-- The tables of a tenant. -/
structure Tables (F G : Type) where
  locations : List (Location F)
  capacity : List (Counter Nat)
  fences : List (Fence G)
  rtree : List (Nat × Box F)
  fenceCapacity : List (Counter Nat)
  membership : List (String × Nat)
  assignment : List (String × Nat)
  journal : List (JournalRow F)
  locationKeys : UniqueKey Location.key locations
  locationIDs : UniqueKey Location.id locations
  /-- A parent was there before its children. -/
  parents : ∀ l ∈ locations, ∀ p ∈ l.parentKey, p < l.key
  capacityKeys : UniqueKey Counter.key capacity
  fenceKeys : UniqueKey Fence.key fences
  fenceIDs : UniqueKey Fence.id fences
  rtreeKeys : UniqueKey Prod.fst rtree
  fenceCapacityKeys : UniqueKey Counter.key fenceCapacity
  membershipKeys : membership.Nodup
  assignmentKeys : UniqueKey Prod.fst assignment

namespace Tables

variable {F G : Type}

/-- The tables after `Init`. -/
def empty : Tables F G where
  locations := []
  capacity := []
  fences := []
  rtree := []
  fenceCapacity := []
  membership := []
  assignment := []
  journal := []
  locationKeys := nodup_nil
  locationIDs := nodup_nil
  parents := by simp
  capacityKeys := nodup_nil
  fenceKeys := nodup_nil
  fenceIDs := nodup_nil
  rtreeKeys := nodup_nil
  fenceCapacityKeys := nodup_nil
  membershipKeys := nodup_nil
  assignmentKeys := nodup_nil

variable (t : Tables F G)

/-- A location by its external id. -/
def locationByID (id : String) : Option (Location F) :=
  t.locations.find? fun l => decide (l.id = id)

/-- A location by its key. -/
def locationByKey (key : Nat) : Option (Location F) :=
  t.locations.find? fun l => decide (l.key = key)

/-- A fence by its external id. -/
def fenceByID (id : String) : Option (Fence G) := t.fences.find? fun f => decide (f.id = id)

/-- The location a subject is assigned to. -/
def assigned (subject : String) : Option Nat :=
  (t.assignment.find? fun a => decide (a.1 = subject)).map Prod.snd

variable {t : Tables F G} {k a : Nat} {l : Location F}

theorem mem_of_locationByID {id : String} (h : t.locationByID id = some l) :
    l ∈ t.locations ∧ l.id = id :=
  ⟨mem_of_find?_eq_some h, by simpa using find?_some h⟩

theorem mem_of_locationByKey (h : t.locationByKey k = some l) : l ∈ t.locations ∧ l.key = k :=
  ⟨mem_of_find?_eq_some h, by simpa using find?_some h⟩

theorem locationByKey_of_mem (h : l ∈ t.locations) : t.locationByKey l.key = some l :=
  t.locationKeys.find?_of_mem h

theorem assigned_eq_some_iff {subject : String} :
    t.assigned subject = some k ↔ (subject, k) ∈ t.assignment := by
  constructor
  · intro h
    obtain ⟨a, ha, rfl⟩ := Option.map_eq_some_iff.mp h
    have hs : a.1 = subject := by simpa using find?_some ha
    exact hs ▸ mem_of_find?_eq_some ha
  · intro h
    have hfind := t.assignmentKeys.find?_of_mem h
    exact Option.map_eq_some_iff.mpr ⟨_, hfind, rfl⟩

/-! ### The walk up the tree -/

/-- The recursive query of `treeAlignedFenceKeys`: a location and those above it, for so many
rounds at most. -/
def ancestorsUpTo (t : Tables F G) : Nat → Nat → List Nat
  | 0, _ => []
  | n + 1, key =>
    match t.locationByKey key with
    | none => []
    | some l => l.key :: l.parentKey.elim [] (t.ancestorsUpTo n)

/-- The location and those above it.  Parents have smaller keys, so that the rounds are enough. -/
def ancestors (t : Tables F G) (key : Nat) : List Nat := t.ancestorsUpTo (key + 1) key

theorem ancestorsUpTo_of_lt {n : Nat} (h : k < n) : t.ancestorsUpTo n k = t.ancestors k := by
  unfold ancestors
  induction k using Nat.strong_induction_on generalizing n with
  | _ k ih =>
    obtain ⟨n, rfl⟩ := Nat.exists_eq_succ_of_ne_zero (Nat.ne_zero_of_lt h)
    rw [ancestorsUpTo, ancestorsUpTo]
    rcases hl : t.locationByKey k with - | l
    · rfl
    · obtain ⟨hmem, hkey⟩ := mem_of_locationByKey hl
      dsimp only
      rcases hp : l.parentKey with - | p
      · rfl
      · have hlt : p < k := hkey ▸ t.parents l hmem p hp
        exact congrArg (l.key :: ·) ((ih p hlt (by omega)).trans (ih p hlt hlt).symm)

/-- The walk, one location at a time. -/
theorem ancestors_of_some (h : t.locationByKey k = some l) :
    t.ancestors k = k :: l.parentKey.elim [] t.ancestors := by
  obtain ⟨hmem, hkey⟩ := mem_of_locationByKey h
  rw [ancestors, ancestorsUpTo, h, ← hkey]
  dsimp only
  rcases hp : l.parentKey with - | p
  · rfl
  · exact congrArg (l.key :: ·) (ancestorsUpTo_of_lt (t.parents l hmem p hp))

theorem ancestors_of_none (h : t.locationByKey k = none) : t.ancestors k = [] := by
  rw [ancestors, ancestorsUpTo, h]

/-- The parent link. -/
def Parent (t : Tables F G) (child parent : Nat) : Prop :=
  ∃ l ∈ t.locations, l.key = child ∧ l.parentKey = some parent

/-- **The walk** finds the locations that the parent links reach. -/
theorem mem_ancestors_iff :
    a ∈ t.ancestors k ↔ (t.locationByKey a).isSome ∧ Relation.ReflTransGen t.Parent k a := by
  constructor
  · intro h
    induction k using Nat.strong_induction_on with
    | _ k ih =>
      rcases hl : t.locationByKey k with - | l
      · rw [ancestors_of_none hl] at h
        cases h
      · obtain ⟨hmem, hkey⟩ := mem_of_locationByKey hl
        rw [ancestors_of_some hl] at h
        rcases mem_cons.mp h with rfl | h
        · exact ⟨Option.isSome_of_eq_some hl, .refl⟩
        · rcases hp : l.parentKey with - | p
          · rw [hp] at h
            cases h
          · rw [hp] at h
            obtain ⟨hsome, hreach⟩ := ih p (hkey ▸ t.parents l hmem p hp) h
            exact ⟨hsome, .head ⟨l, hmem, hkey, hp⟩ hreach⟩
  · rintro ⟨hsome, hreach⟩
    induction hreach using Relation.ReflTransGen.head_induction_on with
    | refl =>
      obtain ⟨l, hl⟩ := Option.isSome_iff_exists.mp hsome
      rw [ancestors_of_some hl]
      exact mem_cons_self
    | head hlink _ ih =>
      obtain ⟨l, hmem, rfl, hp⟩ := hlink
      rw [ancestors_of_some (locationByKey_of_mem hmem), hp]
      exact mem_cons_of_mem _ ih

/-- The fence is aligned to the location or to one above it. -/
def Around (t : Tables F G) (f : Fence G) (key : Nat) : Prop :=
  ∃ a ∈ f.alignedLocationKey, a ∈ t.ancestors key
deriving Decidable

/-- What a fence is around depends on the walk up only. -/
theorem around_iff_of_ancestors {t' : Tables F G} {f : Fence G} {key : Nat}
    (h : t'.ancestors key = t.ancestors key) : t'.Around f key ↔ t.Around f key := by
  unfold Around
  rw [h]

def treeAlignedFenceKeys (t : Tables F G) (key : Nat) : List Nat :=
  (t.fences.filter fun f => decide (t.Around f key)).map fun f => uint32 f.key

theorem mem_treeAlignedFenceKeys {key fk : Nat} :
    fk ∈ t.treeAlignedFenceKeys key ↔ ∃ f ∈ t.fences, t.Around f key ∧ uint32 f.key = fk := by
  simp only [treeAlignedFenceKeys, mem_map, mem_filter, decide_eq_true_eq, and_assoc]

end Tables

end Xolu.Loc
