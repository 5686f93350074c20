/-
# Positions of locations (pkg/loc/placement.go)

A location is placed in the frame of its parent, or carries an anchor, which is a position in the
world.  `ComposeAbsolutePosition` walks up to the nearest location with an anchor, composes the
placements on the way down and converts the offset to degrees.

`Def` demands an anchor of a root; `Patch` replaces the placement of any location by any other.  So
every location has a position (`Positioned`) as long as no patch takes the anchor of a root away:
`Grounded` is the invariant of such runs.

The arithmetic is that of a type with the operations of float64 and the functions of `Math`, which
are those of Go's math package.
-/
import Xolu.Loc.Creation
import Mathlib.Analysis.SpecialFunctions.Complex.Arg

namespace Xolu.Loc

open Keyed Relation Runs Tally Tables Option Placement

/-- The constants and the functions of float64 arithmetic that the package uses. -/
class Math (F : Type) where
  ofNat : Nat → F
  pi : F
  sin : F → F
  cos : F → F
  sqrt : F → F
  atan2 : F → F → F

instance : Math Float where
  ofNat := Float.ofNat
  pi := 3.14159265358979323846264338327950288419716939937510582097494459
  sin := Float.sin
  cos := Float.cos
  sqrt := Float.sqrt
  atan2 := Float.atan2

/-- Exact arithmetic; `atan2 y x` is the angle of the point `(x, y)`. -/
noncomputable instance : Math ℝ where
  ofNat n := n
  pi := Real.pi
  sin := Real.sin
  cos := Real.cos
  sqrt := Real.sqrt
  atan2 y x := Complex.arg ⟨x, y⟩

structure AbsolutePosition (F : Type) where
  lat : F
  lon : F
  alt : F
  heading : F

/-- Why `ComposeAbsolutePosition` fails. -/
inductive PositionError where
  | unknownLocation (location : String)
  /-- The key of a row is not a `LocationKey`. -/
  | scan (key : Nat)
  | noAnchor (location : String)
  | parentNotFound (key : Nat)
deriving DecidableEq, Repr

section

variable {F : Type} [Add F] [Sub F] [Mul F] [Div F] [Neg F] [LT F] [DecidableLT F] [BEq F] [Math F]

open Math

def metresPerDegreeLat : F := ofNat 111320

def safeLongitudeDelta (offsetMetres metresPerDegreeLon : F) : F :=
  if offsetMetres == ofNat 0 then ofNat 0
  else
    let delta := offsetMetres / metresPerDegreeLon
    if ofNat 180 < delta then ofNat 180
    else if delta < -ofNat 180 then -ofNat 180
    else delta

/-- What `composeLocalChain` returns. -/
structure LocalOffset (F : Type) where
  x : F
  y : F
  z : F
  rot : F

/-- The body of the loop of `composeLocalChain`. -/
def LocalOffset.compose (o : LocalOffset F) (p : Placement F) : LocalOffset F where
  x := o.x + (p.offsetX * cos o.rot - p.offsetY * sin o.rot)
  y := o.y + (p.offsetX * sin o.rot + p.offsetY * cos o.rot)
  z := o.z + p.offsetZ
  rot := o.rot + p.rotation

def composeLocalChain (chain : List (Placement F)) : LocalOffset F :=
  chain.foldl LocalOffset.compose ⟨ofNat 0, ofNat 0, ofNat 0, ofNat 0⟩

/-- The end of `ComposeAbsolutePosition`: an offset in the frame of an anchor as a position. -/
def GeoAnchor.position (anchor : GeoAnchor F) (o : LocalOffset F) : AbsolutePosition F :=
  let trueX := o.x * cos anchor.trueNorth - o.y * sin anchor.trueNorth
  let trueY := o.x * sin anchor.trueNorth + o.y * cos anchor.trueNorth
  let metresPerDegreeLon := metresPerDegreeLat * cos (anchor.lat * pi / ofNat 180)
  { lat := anchor.lat + trueY / metresPerDegreeLat
    lon := anchor.lon + safeLongitudeDelta trueX metresPerDegreeLon
    alt := anchor.alt + o.z
    heading := anchor.trueNorth + o.rot }

end

/-! ### Parents stay -/

namespace Tables

variable {F G : Type} {t t' : Tables F G}

/-- The parents of the locations are there. -/
def ParentsThere (t : Tables F G) : Prop :=
  ∀ l ∈ t.locations, ∀ p ∈ l.parentKey, ∃ m ∈ t.locations, m.key = p

theorem ParentsThere.of_tree (h : t.ParentsThere)
    (htree : t'.locations.map (fun l => (l.key, l.id, l.parentKey)) =
      t.locations.map fun l => (l.key, l.id, l.parentKey)) : t'.ParentsThere := by
  intro l hl p hp
  obtain ⟨l₀, hl₀, heq⟩ := List.mem_map.mp (htree ▸ List.mem_map_of_mem hl)
  obtain ⟨m, hm, hkey⟩ := h l₀ hl₀ p ((congrArg (·.2.2) heq).trans hp)
  obtain ⟨m', hm', heq'⟩ := List.mem_map.mp (htree.symm ▸ List.mem_map_of_mem hm)
  exact ⟨m', hm', (congrArg Prod.fst heq').trans hkey⟩

theorem ParentsThere.insertLocation (h : t.ParentsThere) {d : LocationDef F} {hid hcap} :
    (t.insertLocation d hid hcap).ParentsThere := by
  intro l hl p hp
  rcases List.mem_append.mp hl with hl | hl
  · obtain ⟨m, hm, hkey⟩ := h l hl p hp
    exact ⟨m, List.mem_append_left _ hm, hkey⟩
  · rw [List.mem_singleton.mp hl] at hp
    obtain ⟨id, -, hid⟩ := bind_eq_some_iff.mp hp
    obtain ⟨m, hm, hkey⟩ := map_eq_some_iff.mp hid
    exact ⟨m, List.mem_append_left _ (mem_of_locationByID hm).1, hkey⟩

/-- What is below a location is deleted with it, so that no parent goes before its children. -/
theorem ParentsThere.deleted (h : t.ParentsThere) {key : Nat} (hdeleted : Deleted t key t') :
    t'.ParentsThere := by
  intro l hl p hp
  obtain ⟨hl, hkept⟩ := (hdeleted.mem_locations l).mp hl
  obtain ⟨m, hm, rfl⟩ := h l hl p hp
  refine ⟨m, (hdeleted.mem_locations m).mpr ⟨hm, fun hbelow => hkept ?_⟩, rfl⟩
  exact .head ⟨l, hl, rfl, hp⟩ hbelow

theorem ParentsThere.change [LE F] [DecidableLE F] [Geometry F G] {s : LocSite F G}
    {c : LocCmd F G} (h : s.tables.ParentsThere) (hchange : Change s c t') : t'.ParentsThere := by
  cases hchange with
  | upkeep hup => exact h.of_tree hup.tree
  | location hid hcap => exact h.insertLocation
  | fence hne hid hcap => exact h.of_tree rfl
  | moved _ _ hmoved | executed _ hmoved => exact h.of_tree (congrArg _ hmoved.locations)
  | reported _ _ hreported => exact h.of_tree (congrArg _ hreported.locations)

end Tables

/-! ### The walk up to an anchor -/

section

variable {F G : Type} [BEq F]

/-- All four columns of an anchor are numbers: NaN is stored as NULL. -/
def GeoAnchor.numbers (a : GeoAnchor F) : Bool :=
  a.lat == a.lat && a.lon == a.lon && a.alt == a.alt && a.trueNorth == a.trueNorth

/-- The anchor as it is read back. -/
def Placement.storedAnchor (p : Placement F) : Option (GeoAnchor F) :=
  p.anchor.filter GeoAnchor.numbers

variable (l : Location F)

/-- A row as `scanLocation` reads it. -/
def Location.scanned : Location F :=
  { l with
    parentKey := l.parentKey.map uint32
    placement := { l.placement with anchor := l.placement.storedAnchor } }

@[simp] theorem Location.scanned_key : l.scanned.key = l.key := rfl

@[simp] theorem Location.scanned_parentKey : l.scanned.parentKey = l.parentKey.map uint32 := rfl

namespace Tables

def scanLocation (l : Location F) : Except PositionError (Location F) :=
  if l.key < 4294967296 then .ok l.scanned else .error (.scan l.key)

def get (t : Tables F G) (id : String) : Except PositionError (Location F) :=
  match t.locationByID id with
  | none => .error (.unknownLocation id)
  | some l => scanLocation l

def getByKey (t : Tables F G) (key : Nat) : Except PositionError (Location F) :=
  match t.locationByKey (uint32 key) with
  | none => .error (.parentNotFound key)
  | some l => scanLocation l

/-- The loop of `ComposeAbsolutePosition`: the placements from a location up to the nearest anchor,
for so many rounds at most. -/
def chainToAnchor (t : Tables F G) : Nat → Location F →
    Except PositionError (List (Placement F) × GeoAnchor F)
  | 0, cur => .error (.parentNotFound cur.key)
  | n + 1, cur =>
    match cur.placement.anchor with
    | some anchor => .ok ([cur.placement], anchor)
    | none =>
      match cur.parentKey with
      | none => .error (.noAnchor cur.id)
      | some parentKey =>
        match t.getByKey parentKey with
        | .error e => .error e
        | .ok parent =>
          match t.chainToAnchor n parent with
          | .error e => .error e
          | .ok (chainReversed, anchor) => .ok (cur.placement :: chainReversed, anchor)

/-- `ComposeAbsolutePosition`.  Parents have smaller keys, so that the rounds are enough. -/
def composeAbsolutePosition [Add F] [Sub F] [Mul F] [Div F] [Neg F] [LT F] [DecidableLT F] [Math F]
    (t : Tables F G) (id : String) : Except PositionError (AbsolutePosition F) :=
  match t.get id with
  | .error e => .error e
  | .ok loc =>
    match t.chainToAnchor (loc.key + 1) loc with
    | .error e => .error e
    | .ok (chainReversed, anchor) =>
      -- the placement of the location with the anchor is not a hop
      .ok (anchor.position (composeLocalChain chainReversed.dropLast.reverse))

end Tables

/-! ### Who has a position -/

/-- The key of the row is a `LocationKey`, and a root has an anchor. -/
structure Location.Grounded (l : Location F) : Prop where
  key_lt : l.key < 4294967296
  anchored : l.parentKey = none → l.placement.storedAnchor.isSome

namespace Tables

variable {t t' : Tables F G} {n : Nat}

theorem uint32_of_lt (h : n < 4294967296) : uint32 n = n := Nat.mod_eq_of_lt h

variable {l : Location F}

theorem getByKey_of_mem (hl : l ∈ t.locations) (hkey : l.key < 4294967296) :
    t.getByKey l.key = .ok l.scanned := by
  simp only [getByKey, uint32_of_lt hkey, locationByKey_of_mem hl, scanLocation, if_pos hkey]

theorem get_of_mem (hl : l ∈ t.locations) : t.get l.id = scanLocation l := by
  have hfind : t.locationByID l.id = some l := t.locationIDs.find?_of_mem hl
  simp only [get, hfind]

variable {anchor : GeoAnchor F}

theorem chainToAnchor_of_anchor {cur : Location F} (h : cur.placement.anchor = some anchor) :
    t.chainToAnchor (n + 1) cur = .ok ([cur.placement], anchor) := by
  simp only [chainToAnchor, h]

theorem chainToAnchor_of_parent {key : Nat} {cur parent : Location F} {chain : List (Placement F)}
    (hanchor : cur.placement.anchor = none) (hp : cur.parentKey = some key)
    (hget : t.getByKey key = .ok parent) (hchain : t.chainToAnchor n parent = .ok (chain, anchor)) :
    t.chainToAnchor (n + 1) cur = .ok (cur.placement :: chain, anchor) := by
  simp only [chainToAnchor, hanchor, hp, hget, hchain]

/-- **The walk** ends at a location with an anchor. -/
theorem chainToAnchor_of_grounded (hparents : t.ParentsThere) (hi : ∀ l ∈ t.locations, l.Grounded)
    (hl : l ∈ t.locations) (hn : l.key < n) : ∃ a ∈ t.locations, t.Below a.key l.key ∧
      ∃ anchor ∈ a.placement.storedAnchor, ∃ chain,
        t.chainToAnchor n l.scanned = .ok (chain, anchor) := by
  induction n generalizing l with
  | zero => cases hn
  | succ n ih =>
    rcases hanchor : l.placement.storedAnchor with - | anchor
    · -- without an anchor it is not a root, and its parent has a smaller key
      rcases hp : l.parentKey with - | p
      · have hsome := (hi l hl).anchored hp
        rw [hanchor] at hsome
        cases hsome
      obtain ⟨parent, hparent, rfl⟩ := hparents l hl p hp
      have hlt := t.parents l hl _ hp
      obtain ⟨a, ha, hbelow, anchor, hstored, chain, hchain⟩ := ih hparent (by omega)
      have hkey := (hi parent hparent).key_lt
      have hscanned : l.scanned.parentKey = some parent.key := by
        rw [Location.scanned_parentKey, hp, map_some, uint32_of_lt hkey]
      exact ⟨a, ha, .head ⟨l, hl, rfl, hp⟩ hbelow, anchor, hstored, _,
        chainToAnchor_of_parent hanchor hscanned (getByKey_of_mem hparent hkey) hchain⟩
    · exact ⟨l, hl, .refl, anchor, hanchor, _, chainToAnchor_of_anchor hanchor⟩

section

variable [Add F] [Sub F] [Mul F] [Div F] [Neg F] [LT F] [DecidableLT F] [Math F]

/-- Every location has a position, from an anchor above it or its own. -/
def Positioned (t : Tables F G) : Prop :=
  ∀ l ∈ t.locations, ∃ a ∈ t.locations, t.Below a.key l.key ∧
    ∃ anchor ∈ a.placement.storedAnchor, ∃ chain,
      t.composeAbsolutePosition l.id = .ok (anchor.position (composeLocalChain chain))

/-- A location with a position is grounded. -/
theorem grounded_of_ok {l : Location F} (hl : l ∈ t.locations) {pos : AbsolutePosition F}
    (h : t.composeAbsolutePosition l.id = .ok pos) : l.Grounded := by
  rw [composeAbsolutePosition, get_of_mem hl, scanLocation] at h
  by_cases hkey : l.key < 4294967296
  · refine ⟨hkey, fun hroot => ?_⟩
    by_contra hnone
    rw [not_isSome_iff_eq_none] at hnone
    simp [hkey, chainToAnchor, Location.scanned, hnone, hroot] at h
  · simp [hkey] at h

/-- **Positions.**  If no parent is missing, every location has a position if and only if every
location is grounded. -/
theorem positioned_iff (hparents : t.ParentsThere) :
    t.Positioned ↔ ∀ l ∈ t.locations, l.Grounded := by
  constructor
  · intro h l hl
    obtain ⟨a, -, -, anchor, -, chain, hok⟩ := h l hl
    exact grounded_of_ok hl hok
  · intro hi l hl
    obtain ⟨a, ha, hbelow, anchor, hstored, chain, hchain⟩ :=
      chainToAnchor_of_grounded hparents hi hl (Nat.lt_succ_self _)
    refine ⟨a, ha, hbelow, anchor, hstored, chain.dropLast.reverse, ?_⟩
    simp only [composeAbsolutePosition, get_of_mem hl, scanLocation, if_pos (hi l hl).key_lt,
      Location.scanned_key, hchain]

end

/-! ### What a step leaves grounded -/

theorem grounded_insertLocation_iff (hi : ∀ l ∈ t.locations, l.Grounded) {d : LocationDef F}
    (hfresh : t.Fresh d) {hid hcap} : (∀ l ∈ (t.insertLocation d hid hcap).locations, l.Grounded) ↔
      t.nextLocationKey < 4294967296 ∧ (d.parentID = none → d.placement.storedAnchor.isSome) := by
  have hroot : t.parentKeyOf d = none ↔ d.parentID = none := by
    constructor
    · intro hnone
      by_contra hne
      refine parentKeyOf_eq_none_iff.mp ⟨?_, hnone⟩ hfresh.parent
      exact isSome_iff_ne_none.mpr hne
    · intro hnone
      rw [parentKeyOf, hnone, bind_none]
  change (∀ l ∈ t.locations ++ [_], l.Grounded) ↔ _
  rw [List.forall_mem_append, List.forall_mem_singleton, and_iff_right hi, ← hroot]
  exact ⟨fun h => ⟨h.key_lt, h.anchored⟩, fun h => ⟨h.1, h.2⟩⟩

/-- A patched location is grounded unless it is a root that loses its anchor. -/
theorem grounded_relabel_iff {l m : Location F} (hm : m.Grounded) {key : Nat} {name : Option String}
    {placement : Option (Placement F)} (hl : l = relabel key name placement m) :
    l.Grounded ↔ (m.key = key → m.parentKey = none → ∀ p ∈ placement, p.storedAnchor.isSome) := by
  obtain ⟨hkey, -, hparent⟩ := relabel_keeps key name placement m
  subst hl
  constructor
  · rintro h hmkey hroot p rfl
    have hanchored := h.anchored (hparent.trans hroot)
    rwa [relabel, if_pos hmkey] at hanchored
  · intro h
    refine ⟨hkey.trans_lt hm.key_lt, fun hroot => ?_⟩
    have hmroot := hparent.symm.trans hroot
    rcases placement with - | p
    · unfold relabel
      split <;> exact hm.anchored hmroot
    · unfold relabel
      split
      · next hmkey => exact h hmkey hmroot p rfl
      · exact hm.anchored hmroot

theorem grounded_patch_iff (hi : ∀ l ∈ t.locations, l.Grounded) {id : String} {p : PatchParams F}
    (h : t.Patchable id p l) : (∀ m ∈ (t.patch id p).2.locations, m.Grounded) ↔
      (l.parentKey = none → ∀ placement ∈ p.placement, placement.storedAnchor.isSome) := by
  have hl := (mem_of_locationByID h.found).1
  rw [(patch_of_patchable h).2, List.forall_mem_map]
  constructor
  · intro hafter
    exact (grounded_relabel_iff (hi l hl) rfl).mp (hafter l hl) rfl
  · intro hanchored m hm
    refine (grounded_relabel_iff (hi m hm) rfl).mpr fun hkey => ?_
    rwa [t.locationKeys.eq_of_key hm hl hkey]

end Tables

end

namespace LocSite

variable {F G : Type} [BEq F]

/-- A definition that succeeds gets a key below 2^32 and, of a root, has an anchor of numbers; a
patch that is admitted leaves a root an anchor of numbers. -/
def KeepsAnchors (s : LocSite F G) : LocOp F G → Prop
  | .cmd (.defLocation d) => d.WellFormed → s.tables.Fresh d →
      find s.tables.capacity s.tables.nextLocationKey = none →
      s.tables.nextLocationKey < 4294967296 ∧ (d.parentID = none → d.placement.storedAnchor.isSome)
  | .cmd (.patch id p) => p.placement.all notNull = true →
      ∀ l, s.tables.Patchable id p l → l.parentKey = none →
        ∀ placement ∈ p.placement, placement.storedAnchor.isSome
  | _ => True

section

variable {s : LocSite F G} (hi : ∀ l ∈ s.tables.locations, l.Grounded)

include hi

theorem grounded_defLocation_iff {d : LocationDef F} (hnull : d.placement.notNull = true) :
    (∀ l ∈ (s.tables.defLocation d).2.locations, l.Grounded) ↔
      s.KeepsAnchors (.cmd (.defLocation d)) := by
  by_cases hok : ∃ key, (s.tables.defLocation d).1 = .ok key
  · obtain ⟨key, hok⟩ := hok
    obtain ⟨⟨hne, hroot⟩, hfresh, hcap⟩ := defLocation_ok_iff.mp ⟨key, hok⟩
    obtain ⟨hid, hfind, htables⟩ := defLocation_of_ok hok
    rw [htables, grounded_insertLocation_iff hi hfresh]
    exact ⟨fun h _ _ _ => h, fun h => h ⟨hne, hroot, hnull⟩ hfresh hcap⟩
  · rw [defLocation_of_not_ok hok]
    refine iff_of_true hi fun hwf hfresh hcap => absurd ?_ hok
    exact defLocation_ok_iff.mpr ⟨⟨hwf.id_ne, hwf.anchored⟩, hfresh, hcap⟩

theorem grounded_patch_iff {id : String} {p : PatchParams F}
    (hnull : p.placement.all notNull = true) :
    (∀ l ∈ (s.tables.patch id p).2.locations, l.Grounded) ↔
      s.KeepsAnchors (.cmd (.patch id p)) := by
  by_cases hpatch : ∃ l, s.tables.Patchable id p l
  · obtain ⟨l, hl⟩ := hpatch
    rw [Tables.grounded_patch_iff hi hl]
    constructor
    · intro h _ l' hl'
      cases hl.found.symm.trans hl'.found
      exact h
    · exact fun h => h hnull l hl
  · rw [patch_of_not_patchable (not_exists.mp hpatch)]
    exact iff_of_true hi fun _ l hl => absurd ⟨l, hl⟩ hpatch

variable [LE F] [DecidableLE F] [Geometry F G]

/-- After a step every location is grounded if and only if the step keeps the anchors. -/
theorem grounded_stepOp_iff (c : LocOp F G) :
    (∀ l ∈ (s.stepOp c).tables.locations, l.Grounded) ↔ s.KeepsAnchors c := by
  have hchange := s.changeOp_stepOp c
  generalize ht : (s.stepOp c).tables = t' at hchange
  cases c with
  | cmd c =>
    rcases hnull : c.notNull with - | -
    · rw [← ht, stepOp_cmd_of_null hnull]
      refine iff_of_true hi ?_
      cases c with
      | defLocation d =>
        intro hwf
        exact absurd (hwf.notNull.symm.trans hnull) (by decide)
      | patch id p =>
        intro hp
        exact absurd (hp.symm.trans hnull) (by decide)
      | _ => trivial
    · rw [← ht, stepOp_cmd hnull]
      cases c with
      | defLocation d => exact grounded_defLocation_iff hi hnull
      | patch id p => exact grounded_patch_iff hi hnull
      | _ =>
        rw [s.locations_step (by simp) (by simp)]
        exact iff_of_true hi trivial
  | delete id force =>
    refine iff_of_true ?_ trivial
    cases hchange with
    | refused => exact hi
    | deleted _ h => exact fun l hl => hi l ((h.mem_locations l).mp hl).1
  | deleteFence id =>
    refine iff_of_true ?_ trivial
    cases hchange with
    | refused => exact hi
    | fenceDeleted _ h => exact h.locations ▸ hi

end

variable [LE F] [DecidableLE F] [Geometry F G]

theorem parentsThere_stepOp {s : LocSite F G} (h : s.tables.ParentsThere) (c : LocOp F G) :
    (s.stepOp c).tables.ParentsThere := by
  have hchange := s.changeOp_stepOp c
  generalize (s.stepOp c).tables = t' at hchange
  cases hchange with
  | refused => exact h
  | cmd _ hcmd => exact h.change hcmd
  | deleted _ hdeleted => exact h.deleted hdeleted
  | fenceDeleted _ hdeleted => exact h.of_tree (congrArg _ hdeleted.locations)

variable [Add F] [Sub F] [Mul F] [Div F] [Neg F] [LT F] [DecidableLT F] [Math F]

/-- Every location has a position after the step. -/
def LeavesPositioned (s : LocSite F G) (c : LocOp F G) : Prop := (s.stepOp c).tables.Positioned

/-- **Positions.**  In a run of any commands and deletions every location has a position after every
step if and only if every step keeps the anchors of the roots. -/
theorem positioned_iff_keepsAnchors (tenant : String) (now : Int) (ops : List (LocOp F G)) :
    Along stepOp LeavesPositioned (init tenant now) ops ↔
      Along stepOp KeepsAnchors (init tenant now) ops := by
  refine along_iff_of_invariant (I := fun s : LocSite F G =>
      s.tables.ParentsThere ∧ ∀ l ∈ s.tables.locations, l.Grounded)
    (fun s c hi _ hc => ⟨parentsThere_stepOp hi.1 c, (grounded_stepOp_iff hi.2 c).mpr hc⟩)
    (fun s c hi _ => ?_) ?_ .trivial
  · exact (positioned_iff (parentsThere_stepOp hi.1 c)).trans (grounded_stepOp_iff hi.2 c)
  · exact ⟨fun _ hl => absurd hl List.not_mem_nil, fun _ hl => absurd hl List.not_mem_nil⟩

/-- A root is defined with an anchor, and patched to have none. -/
def dropAnchor {F : Type} [Math F] : List (LocOp F (Box F)) :=
  let zero : F := Math.ofNat 0
  [.cmd (.defLocation ⟨"root", none, "", true,
      ⟨zero, zero, zero, zero, some ⟨zero, zero, zero, zero⟩⟩⟩),
    .cmd (.patch "root" ⟨none, some ⟨zero, zero, zero, zero, none⟩, none⟩)]

/-- Both steps are admitted, and the root has no position then. -/
theorem root_loses_position :
    (run stepOp (init "t" 0) (dropAnchor (F := ℝ))).tables.composeAbsolutePosition "root" =
        .error (.noAnchor "root") ∧
      ¬ Along stepOp LeavesPositioned (init "t" 0) (dropAnchor (F := ℝ)) := by
  have hrun : (run stepOp (init "t" 0) (dropAnchor (F := ℝ))).tables.locations =
      [⟨1, "root", none, "", true, ⟨0, 0, 0, 0, none⟩⟩] := by
    simp [run, dropAnchor, stepOp, LocCmd.notNull, notNull, step, init, defLocation, empty,
      rootAnchorOK, locationByID, parentKeyOf, find, insertLocation, nextLocationKey, nextKey,
      patch, atomically, patchInTx, patchPlacement, anchorChanged, append, updateLocation, relabel,
      Math.ofNat]
  have herror : (run stepOp (init "t" 0) (dropAnchor (F := ℝ))).tables.composeAbsolutePosition
      "root" = .error (.noAnchor "root") := by
    simp [composeAbsolutePosition, Tables.get, locationByID, hrun,
      scanLocation, chainToAnchor, Location.scanned, storedAnchor]
  refine ⟨herror, fun h => ?_⟩
  obtain ⟨a, -, -, anchor, -, chain, hok⟩ := h.2.1 _ (hrun ▸ List.mem_singleton_self _)
  cases herror.symm.trans hok

end LocSite

end Xolu.Loc
