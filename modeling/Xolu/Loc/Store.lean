/-
# Definitions, geometry and reports (pkg/loc/store.go, pkg/loc/geometry.go)

`Def` and `DefFence` allocate the next key and insert a row with its counter; `Patch` changes
a location in place; `SetFenceGeometry` stores a shape and its box.  `Report` resolves a
coordinate to the fences that contain it and brings the recorded membership of the subject
along: it leaves and enters fences through the same guarded counters as a move.

A transaction that fails leaves nothing (`atomically`).  The order in which Go goes through a
map is arbitrary, so that the operations that do take it as an argument (`MapOrder`).
-/
import Xolu.Loc.Model

namespace Xolu.Loc

open List Keyed Tally Counter Prod

/-- The order in which the keys of a map are visited. -/
structure MapOrder where
  order : List Nat → List Nat
  perm : ∀ keys, (order keys).Perm keys

/-- The keys as they were collected. -/
def MapOrder.asCollected : MapOrder := ⟨id, fun _ => .refl _⟩

/-- The keys that are new and those that are gone, of two sets of keys. -/
def delta (o : MapOrder) (new old : List Nat) : List Nat × List Nat :=
  (o.order (new.filter (· ∉ old)).dedup, o.order (old.filter (· ∉ new)).dedup)

/-- A slice that keys have been appended to: it stays nil if there are none. -/
def slice (keys : List Nat) : Option (List Nat) := if keys = [] then none else some keys

variable {new old : List Nat} {o : MapOrder}

theorem mem_delta_fst {k : Nat} : k ∈ (delta o new old).1 ↔ k ∈ new ∧ k ∉ old := by
  rw [delta, (o.perm _).mem_iff, mem_dedup, mem_filter, decide_eq_true_eq]

theorem mem_delta_snd {k : Nat} : k ∈ (delta o new old).2 ↔ k ∈ old ∧ k ∉ new := by
  rw [delta, (o.perm _).mem_iff, mem_dedup, mem_filter, decide_eq_true_eq]

theorem nodup_delta (o : MapOrder) (new old : List Nat) :
    (delta o new old).1.Nodup ∧ (delta o new old).2.Nodup :=
  ⟨(o.perm _).nodup_iff.mpr (nodup_dedup _), (o.perm _).nodup_iff.mpr (nodup_dedup _)⟩

theorem delta_fst_eq_nil : (delta o new old).1 = [] ↔ ∀ k ∈ new, k ∈ old := by
  rw [eq_nil_iff_forall_not_mem]
  simp only [mem_delta_fst, not_and, not_not]

theorem delta_snd_eq_nil : (delta o new old).2 = [] ↔ ∀ k ∈ old, k ∈ new := by
  rw [eq_nil_iff_forall_not_mem]
  simp only [mem_delta_snd, not_and, not_not]

/-- The point is in the box, as the R-tree is asked. -/
def Box.overlaps {F : Type} [LE F] [DecidableLE F] (b : Box F) (lat lon : F) : Bool :=
  decide (b.minLat ≤ lat) && decide (lat ≤ b.maxLat) && decide (b.minLon ≤ lon) &&
    decide (lon ≤ b.maxLon)

/-- An axis-aligned rectangle as a shape. -/
instance {F : Type} [LE F] [DecidableLE F] : Geometry F (Box F) where
  fault _ := none
  boundingBox b := b
  contains := Box.overlaps

def rootAnchorOK {F : Type} (d : LocationDef F) : Bool :=
  d.parentID.isSome || d.placement.anchor.isSome

/-- Whether `Patch` moves the anchor. -/
def anchorChanged {F : Type} [BEq F] (old new : Option (GeoAnchor F)) : Bool :=
  match old, new with
  | none, none => false
  | some a, some b =>
    a.lat != b.lat || a.lon != b.lon || a.alt != b.alt || a.trueNorth != b.trueNorth
  | _, _ => true

/-- `PatchParams`; a ceiling is cleared by `some none`. -/
structure PatchParams (F : Type) where
  name : Option String
  placement : Option (Placement F)
  ceiling : Option (Option Int)

/-- A journal row for the change of a location's anchor. -/
def anchorRow {F : Type} (id : String) (anchor : Option (GeoAnchor F)) : JournalRow F where
  subjectRef := id
  kind := .anchor
  fromLocationKey := none
  toLocationKey := none
  reportLat := anchor.map GeoAnchor.lat
  reportLon := anchor.map GeoAnchor.lon
  reportAlt := anchor.map GeoAnchor.alt
  enteredFenceKeys := some []
  exitedFenceKeys := some []

/-- A report that has read and not written. -/
structure OpenReport (F : Type) where
  subject : String
  lat : F
  lon : F
  entered : List Nat
  exited : List Nat
  enteredNodup : entered.Nodup
  exitedNodup : exited.Nodup
  apart : ∀ k ∈ exited, k ∉ entered

/-- A journal row for a report. -/
def reportRow {F : Type} (r : OpenReport F) : JournalRow F where
  subjectRef := r.subject
  kind := .report
  fromLocationKey := none
  toLocationKey := none
  reportLat := some r.lat
  reportLon := some r.lon
  reportAlt := none
  enteredFenceKeys := slice r.entered
  exitedFenceKeys := slice r.exited

namespace Tables

variable {F G : Type}

/-- A transaction: what it has written is rolled back if it fails. -/
def atomically {α : Type} (tx : Tables F G → Except LocError α × Tables F G) (t : Tables F G) :
    Except LocError α × Tables F G :=
  match tx t with
  | (.ok a, t') => (.ok a, t')
  | (.error e, _) => (.error e, t)

/-! ### Locations -/

variable (t : Tables F G)

/-- The key the next location gets. -/
def nextLocationKey : Nat := nextKey (t.locations.map Location.key)

/-- The key of the parent that a definition names. -/
def parentKeyOf (d : LocationDef F) : Option Nat :=
  d.parentID.bind fun id => (t.locationByID id).map Location.key

theorem parentKeyOf_lt (d : LocationDef F) : ∀ p ∈ t.parentKeyOf d, p < t.nextLocationKey := by
  intro p hp
  obtain ⟨id, -, hid⟩ := Option.bind_eq_some_iff.mp hp
  obtain ⟨l, hl, rfl⟩ := Option.map_eq_some_iff.mp hid
  exact lt_nextKey (mem_map_of_mem (mem_of_locationByID hl).1)

/-- A location and its counter inserted. -/
def insertLocation (d : LocationDef F) (hid : t.locationByID d.id = none)
    (hcap : find t.capacity t.nextLocationKey = none) : Tables F G :=
  { t with
    locations := t.locations ++
      [⟨t.nextLocationKey, d.id, t.parentKeyOf d, d.name, d.postable, d.placement⟩]
    capacity := t.capacity ++ [⟨t.nextLocationKey, none, 0⟩]
    locationKeys := by
      apply t.locationKeys.concat
      exact fun l hl => (lt_nextKey (mem_map_of_mem hl)).ne
    locationIDs := by
      apply t.locationIDs.concat
      simpa [locationByID] using hid
    parents := by
      intro l hl p hp
      rcases mem_append.mp hl with hl | hl
      · exact t.parents l hl p hp
      · rw [mem_singleton.mp hl] at hp ⊢
        exact t.parentKeyOf_lt d p hp
    capacityKeys := by
      apply t.capacityKeys.concat
      simpa [find] using hcap }

/-- `Def`. -/
def defLocation (d : LocationDef F) (t : Tables F G) : Except LocError Nat × Tables F G :=
  if d.id = "" then (.error (.validation "location_id is required"), t)
  else if rootAnchorOK d = false then (.error (.rootAnchor d.id), t)
  else if hid : t.locationByID d.id = none then
    -- a parent that is not there must not make a root
    if d.parentID.isSome ∧ t.parentKeyOf d = none then
      (.error (.unknownLocation (d.parentID.getD "")), t)
    else if hcap : find t.capacity t.nextLocationKey = none then
      (.ok (uint32 t.nextLocationKey), t.insertLocation d hid hcap)
    else (.error (.constraint "loc_capacity"), t)
  else (.error (.duplicateLocation d.id), t)

/-- A location with its name and its placement changed, where they are given. -/
def relabel (key : Nat) (name : Option String) (placement : Option (Placement F))
    (l : Location F) : Location F :=
  if l.key = key then
    { l with name := name.getD l.name, placement := placement.getD l.placement }
  else l

/-- What `relabel` leaves of a location. -/
theorem relabel_keeps (key : Nat) (name : Option String) (placement : Option (Placement F))
    (l : Location F) :
    (relabel key name placement l).key = l.key ∧ (relabel key name placement l).id = l.id ∧
      (relabel key name placement l).parentKey = l.parentKey := by
  unfold relabel
  split <;> exact ⟨rfl, rfl, rfl⟩

/-- The name and the placement of a location changed, where they are given. -/
def updateLocation (key : Nat) (name : Option String)
    (placement : Option (Placement F)) : Tables F G :=
  { t with
    locations := t.locations.map (relabel key name placement)
    locationKeys := t.locationKeys.map_of_key fun l => (relabel_keeps key name placement l).1
    locationIDs := t.locationIDs.map_of_key fun l => (relabel_keeps key name placement l).2.1
    parents := by
      intro l hl p hp
      obtain ⟨l, hmem, rfl⟩ := mem_map.mp hl
      obtain ⟨hkey, -, hparent⟩ := relabel_keeps key name placement l
      rw [hparent] at hp
      rw [hkey]
      exact t.parents l hmem p hp }

/-- A journal row appended. -/
def append (row : JournalRow F) : Tables F G := { t with journal := t.journal ++ [row] }

/-- The ceiling of a location set. -/
def setLeafCeiling (key : Nat) (ceiling : Option Int) : Tables F G :=
  { t with
    capacity := setCeiling t.capacity key ceiling
    capacityKeys := t.capacityKeys.of_keys (keys_setCeiling key ceiling) }

/-- The name and the placement in `Patch`, with the journal row for an anchor that moves. -/
def patchPlacement [BEq F] (t : Tables F G) (l : Location F) (p : PatchParams F) : Tables F G :=
  let t' := t.updateLocation l.key p.name p.placement
  match p.placement with
  | none => t'
  | some placement =>
    if anchorChanged l.placement.anchor placement.anchor then
      t'.append (anchorRow l.id placement.anchor)
    else t'

/-- The transaction of `Patch`. -/
def patchInTx [BEq F] (l : Location F) (p : PatchParams F) (t : Tables F G) :
    Except LocError Unit × Tables F G :=
  let t := t.patchPlacement l p
  match p.ceiling with
  | none => (.ok (), t)
  | some ceiling =>
    if l.postable = false then (.error (.capacityOnNonPostable l.id), t)
    else if ceiling.any (· < 0) then
      (.error (.validation s!"capacity ceiling must be >= 0, got {ceiling.getD 0}"), t)
    else (.ok (), t.setLeafCeiling l.key ceiling)

def patch [BEq F] (id : String) (p : PatchParams F) (t : Tables F G) :
    Except LocError Unit × Tables F G :=
  if p.name = none ∧ p.placement.isNone ∧ p.ceiling = none then (.ok (), t)
  else
    match t.locationByID id with
    | none => (.error (.unknownLocation id), t)
    | some l => atomically (patchInTx l p) t

/-! ### Fences -/

/-- The key the next fence gets. -/
def nextFenceKey : Nat := nextKey (t.fences.map Fence.key)

/-- The key of the location that a fence is to be aligned to. -/
def alignedKeyOf (aligned : Option String) : Option Nat :=
  aligned.bind fun id => (t.locationByID id).map Location.key

/-- A fence and its counter inserted. -/
def insertFence (id : String) (aligned : Option String)
    (hid : t.fenceByID id = none) (hcap : find t.fenceCapacity t.nextFenceKey = none) :
    Tables F G :=
  { t with
    fences := t.fences ++ [⟨t.nextFenceKey, id, t.alignedKeyOf aligned, none⟩]
    fenceCapacity := t.fenceCapacity ++ [⟨t.nextFenceKey, none, 0⟩]
    fenceKeys := by
      apply t.fenceKeys.concat
      exact fun f hf => (lt_nextKey (mem_map_of_mem hf)).ne
    fenceIDs := by
      apply t.fenceIDs.concat
      simpa [fenceByID] using hid
    fenceCapacityKeys := by
      apply t.fenceCapacityKeys.concat
      simpa [find] using hcap }

def defFence (id : String) (aligned : Option String) (t : Tables F G) :
    Except LocError Nat × Tables F G :=
  if id = "" then (.error (.validation "fence id is required"), t)
  else if hid : t.fenceByID id = none then
    if aligned.isSome ∧ t.alignedKeyOf aligned = none then
      (.error (.unknownLocation (aligned.getD "")), t)
    else if hcap : find t.fenceCapacity t.nextFenceKey = none then
      (.ok (uint32 t.nextFenceKey), t.insertFence id aligned hid hcap)
    else (.error (.constraint "loc_fence_capacity"), t)
  else (.error (.duplicateFence id), t)

/-- The ceiling of a fence, as `handleLocFenceAttach` sets it. -/
def setFenceCeiling (key : Nat) (ceiling : Int) : Tables F G :=
  { t with
    fenceCapacity := setCeiling t.fenceCapacity (uint32 key) (some ceiling)
    fenceCapacityKeys := t.fenceCapacityKeys.of_keys (keys_setCeiling _ _) }

/-- A fence with a new shape. -/
def reshape (key : Nat) (g : G) (f : Fence G) : Fence G :=
  if f.key = key then { f with geometry := some g } else f

/-- What `reshape` leaves of a fence. -/
theorem reshape_keeps (key : Nat) (g : G) (f : Fence G) :
    (reshape key g f).key = f.key ∧ (reshape key g f).id = f.id ∧
      (reshape key g f).alignedLocationKey = f.alignedLocationKey := by
  unfold reshape
  split <;> exact ⟨rfl, rfl, rfl⟩

/-- A shape and its box stored. -/
def storeGeometry [Geometry F G] (t : Tables F G) (key : Nat) (g : G) : Tables F G :=
  { t with
    fences := t.fences.map (reshape key g)
    rtree := t.rtree.filter (·.1 ≠ key) ++ [(key, Geometry.boundingBox g)]
    fenceKeys := t.fenceKeys.map_of_key fun f => (reshape_keeps key g f).1
    fenceIDs := t.fenceIDs.map_of_key fun f => (reshape_keeps key g f).2.1
    rtreeKeys := by
      refine UniqueKey.concat (t.rtreeKeys.sublist (filter_sublist.map _)) fun e he => ?_
      simpa using (mem_filter.mp he).2 }

def setFenceGeometry [Geometry F G] (id : String) (g : G) (t : Tables F G) :
    Except LocError Unit × Tables F G :=
  match t.fenceByID id with
  | none => (.error (.unknownFence id), t)
  | some f =>
    match Geometry.fault g with
    | some fault => (.error (.geometry id fault), t)
    | none => (.ok (), t.storeGeometry f.key g)

/-! ### Reports -/

/-- `loadFenceGeometry`; the outer option is the row. -/
def loadFenceGeometry (key : Nat) : Option (Option G) :=
  (t.fences.find? fun f => decide (f.key = key)).map Fence.geometry

/-- The loop of `ResolveFenceMembership` over the candidates. -/
def resolveLoop [Geometry F G] (t : Tables F G) (lat lon : F) :
    List Nat → Except LocError (List Nat)
  | [] => .ok []
  | fk :: candidates =>
    match t.loadFenceGeometry fk with
    | none => .error (.noRows fk)
    | some geom =>
      match t.resolveLoop lat lon candidates with
      | .error e => .error e
      | .ok member =>
        .ok (if geom.any (Geometry.contains · lat lon) then uint32 fk :: member else member)

def resolveFenceMembership [LE F] [DecidableLE F] [Geometry F G] (t : Tables F G) (lat lon : F) :
    Except LocError (List Nat) :=
  t.resolveLoop lat lon ((t.rtree.filter (·.2.overlaps lat lon)).map fst)

theorem loadFenceGeometry_isSome_iff {t : Tables F G} {key : Nat} :
    (t.loadFenceGeometry key).isSome ↔ key ∈ t.fences.map Fence.key := by
  rw [loadFenceGeometry, Option.isSome_map, find?_isSome, mem_map]
  simp only [decide_eq_true_eq]

section

variable [Geometry F G] {t : Tables F G} {lat lon : F} {keys : List Nat}

theorem resolveLoop_of_there (h : ∀ k ∈ keys, k ∈ t.fences.map Fence.key) :
    t.resolveLoop lat lon keys = .ok ((keys.filter fun key => (t.loadFenceGeometry key).any
      fun geom => geom.any (Geometry.contains · lat lon)).map uint32) := by
  induction keys with
  | nil => rfl
  | cons k keys ih =>
    rw [forall_mem_cons] at h
    obtain ⟨geom, hgeom⟩ := Option.isSome_iff_exists.mp (loadFenceGeometry_isSome_iff.mpr h.1)
    simp only [resolveLoop, hgeom, ih h.2, filter_cons, Option.any_some]
    split_ifs <;> rfl

theorem there_of_resolveLoop {members : List Nat}
    (h : t.resolveLoop lat lon keys = .ok members) : ∀ k ∈ keys, k ∈ t.fences.map Fence.key := by
  induction keys generalizing members with
  | nil => exact fun k hk => absurd hk not_mem_nil
  | cons k keys ih =>
    rw [resolveLoop] at h
    split at h
    · cases h
    · next geom hgeom =>
      split at h
      · cases h
      · next rest hrest =>
        rw [forall_mem_cons]
        exact ⟨loadFenceGeometry_isSome_iff.mp (by rw [hgeom, Option.isSome_some]), ih hrest⟩

end

/-- `CurrentFenceKeys`: the recorded membership of a subject. -/
def currentFenceKeys (t : Tables F G) (subject : String) : List Nat :=
  (t.membership.filter (·.1 = subject)).map fun m => uint32 m.2

/-- The counters of the fences and the membership replaced. -/
def setFences (t : Tables F G) (rows : List (Counter Nat)) (members : List (String × Nat))
    (hrows : rows.map key = t.fenceCapacity.map key) (hmembers : members.Nodup) :
    Tables F G :=
  { t with
    fenceCapacity := rows
    fenceCapacityKeys := t.fenceCapacityKeys.of_keys hrows
    membership := members
    membershipKeys := hmembers }

/-- The exits of a report. -/
def leaveFences (subject : String) : List Nat → Tables F G → Except LocError Unit × Tables F G
  | [], t => (.ok (), t)
  | fk :: fks, t =>
    match h : leave t.fenceCapacity fk with
    | none => (.error (.invariant .report fk), t)
    | some rows =>
      leaveFences subject fks (t.setFences rows (t.membership.filter (· ≠ (subject, fk)))
        (keys_adjust h) (t.membershipKeys.filter _))

/-- The entries of a report. -/
def enterFences (subject : String) : List Nat → Tables F G → Except LocError Unit × Tables F G
  | [], t => (.ok (), t)
  | fk :: fks, t =>
    match h : enter t.fenceCapacity fk with
    | none => (.error (.capacity .fence fk), t)
    | some rows =>
      if hm : (subject, fk) ∈ t.membership then (.error (.constraint "loc_fence_membership"), t)
      else
        enterFences subject fks (t.setFences rows (t.membership ++ [(subject, fk)])
          (keys_adjust h) (nodup_append.mpr ⟨t.membershipKeys, nodup_singleton _,
            by simpa using fun a b ha e e' => hm (by rwa [← e, ← e'])⟩))

/-- What `Report` computes before its transaction. -/
def openReport (t : Tables F G) (o : MapOrder) (subject : String) (lat lon : F) (new : List Nat) :
    OpenReport F where
  subject := subject
  lat := lat
  lon := lon
  entered := (delta o new (t.currentFenceKeys subject)).1
  exited := (delta o new (t.currentFenceKeys subject)).2
  enteredNodup := (nodup_delta ..).1
  exitedNodup := (nodup_delta ..).2
  apart := fun _ hk hk' => (mem_delta_fst.mp hk').2 (mem_delta_snd.mp hk).1

@[simp] theorem subject_openReport {t : Tables F G} {subject : String} {lat lon : F} :
    (t.openReport o subject lat lon new).subject = subject := rfl

/-- The transaction of `Report`. -/
def reportInTx (r : OpenReport F) (t : Tables F G) : Except LocError Unit × Tables F G :=
  match leaveFences r.subject r.exited t with
  | (.error e, t) => (.error e, t)
  | (.ok _, t) =>
    match enterFences r.subject r.entered t with
    | (.error e, t) => (.error e, t)
    | (.ok _, t) => (.ok (), t.append (reportRow r))

section

variable [LE F] [DecidableLE F] [Geometry F G] (o : MapOrder) (subject : String) (lat lon : F)
  (t : Tables F G)

/-- `Report` up to its transaction, which there is not if nothing changes. -/
def readReport : Except LocError (Option (OpenReport F)) :=
  if subject = "" then .error (.validation "subject_ref is required")
  else
    match t.resolveFenceMembership lat lon with
    | .error e => .error e
    | .ok new =>
      let r := t.openReport o subject lat lon new
      .ok (if r.entered = [] ∧ r.exited = [] then none else some r)

def report : Except LocError Unit × Tables F G :=
  match t.readReport o subject lat lon with
  | .error e => (.error e, t)
  | .ok none => (.ok (), t)
  | .ok (some r) => atomically (reportInTx r) t

end

/-! ### What a report does -/

section

variable {t t' : Tables F G} {subject : String} {e : LocError} {α : Type}
  {tx : Tables F G → Except LocError α × Tables F G}

theorem atomically_error (h : (atomically tx t).1 = .error e) : (atomically tx t).2 = t := by
  unfold atomically at h ⊢
  split
  · simp_all
  · rfl

theorem atomically_ok {a : α}
    (h : (atomically tx t).1 = .ok a) : tx t = (.ok a, (atomically tx t).2) := by
  unfold atomically at h ⊢
  split <;> simp_all

theorem fst_atomically (tx : Tables F G → Except LocError α × Tables F G)
    (t : Tables F G) : (atomically tx t).1 = (tx t).1 := by
  unfold atomically
  split <;> simp_all

/-- What holds before a transaction and when it succeeds holds after it. -/
theorem atomically_rule {P : Tables F G → Prop} (hbefore : P t)
    (htx : ∀ a, (tx t).1 = .ok a → P (tx t).2) : P (atomically tx t).2 := by
  unfold atomically
  rcases h : tx t with ⟨_ | a, t'⟩
  · exact hbefore
  · rw [h] at htx
    exact htx a rfl

/-- What the transaction of a report leaves as it is. -/
structure SameButReports (t t' : Tables F G) : Prop where
  locations : t'.locations = t.locations
  capacity : t'.capacity = t.capacity
  fences : t'.fences = t.fences
  rtree : t'.rtree = t.rtree
  fenceKeys : t'.fenceCapacity.map key = t.fenceCapacity.map key
  assignment : t'.assignment = t.assignment

/-- Two states that agree off the counters of the fences and the recorded membership. -/
structure SameButFences (t t' : Tables F G) : Prop extends SameButReports t t' where
  journal : t'.journal = t.journal

theorem SameButFences.refl (t : Tables F G) : SameButFences t t :=
  ⟨⟨rfl, rfl, rfl, rfl, rfl, rfl⟩, rfl⟩

theorem SameButFences.trans {t'' : Tables F G} (h : SameButFences t t')
    (h' : SameButFences t' t'') : SameButFences t t'' where
  locations := h'.locations.trans h.locations
  capacity := h'.capacity.trans h.capacity
  fences := h'.fences.trans h.fences
  rtree := h'.rtree.trans h.rtree
  fenceKeys := h'.fenceKeys.trans h.fenceKeys
  assignment := h'.assignment.trans h.assignment
  journal := h'.journal.trans h.journal

theorem sameButFences_setFences {rows : List (Counter Nat)} {members : List (String × Nat)}
    {hrows hmembers} : SameButFences t (t.setFences rows members hrows hmembers) :=
  ⟨⟨rfl, rfl, rfl, rfl, hrows, rfl⟩, rfl⟩

/-- The exits go through the counters as `leaveAll` does. -/
theorem leaveFences_spec (subject : String) (fks : List Nat) (t : Tables F G) :
    SameButFences t (leaveFences subject fks t).2 ∧
      ((leaveFences subject fks t).1 = .ok () → (leaveAll fks t.fenceCapacity).1 = .ok () ∧
        (leaveFences subject fks t).2.fenceCapacity = (leaveAll fks t.fenceCapacity).2 ∧
        (leaveFences subject fks t).2.membership =
          t.membership.filter fun m => decide ¬ (m.1 = subject ∧ m.2 ∈ fks)) ∧
      ∀ e, (leaveFences subject fks t).1 = .error e →
        ∃ k, (leaveAll fks t.fenceCapacity).1 = .error k ∧ e = .invariant .report k := by
  induction fks generalizing t with
  | nil =>
    refine ⟨.refl t, ?_, fun e h => by cases h⟩
    simp [leaveFences, leaveAll]
  | cons fk fks ih =>
    unfold leaveFences leaveAll
    split
    · next hleave =>
      rw [hleave]
      exact ⟨.refl t, (fun h => by cases h),
        fun e h => ⟨fk, rfl, (Except.error.inj h).symm⟩⟩
    · next rows hleave =>
      simp only [hleave]
      obtain ⟨hsame, hok, herror⟩ := ih (t.setFences rows _ _ _)
      refine ⟨sameButFences_setFences.trans hsame, fun h => ?_, herror⟩
      obtain ⟨hall, hrows, hmembers⟩ := hok h
      refine ⟨hall, hrows, hmembers.trans ?_⟩
      change (t.membership.filter _).filter _ = _
      rw [filter_filter]
      refine filter_congr fun m _ => ?_
      rw [← Bool.decide_and, decide_eq_decide, mem_cons, ne_eq, Prod.ext_iff]
      tauto

/-- The entries go through the counters as `enterAll` does. -/
theorem enterFences_spec (subject : String) (fks : List Nat) (t : Tables F G) :
    SameButFences t (enterFences subject fks t).2 ∧
      ((enterFences subject fks t).1 = .ok () → (enterAll fks t.fenceCapacity).1 = .ok () ∧
        (enterFences subject fks t).2.fenceCapacity = (enterAll fks t.fenceCapacity).2 ∧
        (enterFences subject fks t).2.membership = t.membership ++ fks.map (subject, ·)) ∧
      ∀ e, (enterFences subject fks t).1 = .error e → fks.Nodup →
        (∀ fk ∈ fks, (subject, fk) ∉ t.membership) →
        ∃ k, (enterAll fks t.fenceCapacity).1 = .error k ∧ e = .capacity .fence k := by
  induction fks generalizing t with
  | nil =>
    refine ⟨.refl t, ?_, fun e h => by cases h⟩
    simp [enterFences, enterAll]
  | cons fk fks ih =>
    unfold enterFences enterAll
    split
    · next henter =>
      rw [henter]
      exact ⟨.refl t, (fun h => by cases h),
        fun e h _ _ => ⟨fk, rfl, (Except.error.inj h).symm⟩⟩
    · next rows henter =>
      simp only [henter]
      split_ifs with hold
      · exact ⟨.refl t, (fun h => by cases h),
          fun e _ _ hnew => absurd hold (hnew fk mem_cons_self)⟩
      obtain ⟨hsame, hok, herror⟩ := ih (t.setFences rows _ _ _)
      refine ⟨sameButFences_setFences.trans hsame, fun h => ?_, fun e h hnd hnew => ?_⟩
      · obtain ⟨hall, hrows, hmembers⟩ := hok h
        refine ⟨hall, hrows, hmembers.trans ?_⟩
        exact append_assoc ..
      · rw [nodup_cons] at hnd
        rw [forall_mem_cons] at hnew
        refine herror e h hnd.2 fun fk' hfk' hmem => ?_
        rcases mem_append.mp hmem with hmem | hmem
        · exact hnew.2 fk' hfk' hmem
        · have heq : fk' = fk := by simpa using hmem
          exact hnd.1 (heq ▸ hfk')

/-- What a report that writes does. -/
structure Reported (t : Tables F G) (r : OpenReport F) (t' : Tables F G) : Prop
    extends SameButReports t t' where
  leaveAll_ok : (leaveAll r.exited t.fenceCapacity).1 = .ok ()
  enterAll_ok : (enterAll r.entered (leaveAll r.exited t.fenceCapacity).2).1 = .ok ()
  fenceCapacity : t'.fenceCapacity = (enterAll r.entered (leaveAll r.exited t.fenceCapacity).2).2
  membership : t'.membership =
    (t.membership.filter fun m => decide ¬ (m.1 = r.subject ∧ m.2 ∈ r.exited)) ++
      r.entered.map (r.subject, ·)
  journal : t'.journal = t.journal ++ [reportRow r]

/-- A report that fails in its transaction fails at an exit or for want of room, unless it
enters a fence that is recorded already. -/
theorem reportInTx_spec {r : OpenReport F} {result : Except LocError Unit}
    (h : (reportInTx r t).1 = result) :
    match (motive := Except LocError Unit → Prop) result with
    | .error e => (∀ fk ∈ r.entered, (r.subject, fk) ∉ t.membership) →
      (∃ k, (leaveAll r.exited t.fenceCapacity).1 = .error k ∧ e = .invariant .report k) ∨
        ∃ k, (enterAll r.entered (leaveAll r.exited t.fenceCapacity).2).1 = .error k ∧
          e = .capacity .fence k
    | .ok _ => Reported t r (reportInTx r t).2 := by
  subst h
  unfold reportInTx
  have hsame := (leaveFences_spec r.subject r.exited t).1
  rcases hl : leaveFences r.subject r.exited t with ⟨e | _, tl⟩
  · exact fun _ => .inl ((leaveFences_spec ..).2.2 e (congrArg fst hl))
  have hleave := (leaveFences_spec ..).2.1 (congrArg fst hl)
  rw [hl] at hleave hsame
  have hsame' := hsame.trans (enterFences_spec r.subject r.entered tl).1
  dsimp only
  rcases he : enterFences r.subject r.entered tl with ⟨e | _, te⟩
  · intro hnew
    rw [← hleave.2.1]
    refine .inr ((enterFences_spec ..).2.2 e (congrArg fst he) r.enteredNodup fun fk hfk hmem =>
      hnew fk hfk ?_)
    exact (mem_filter.mp (hleave.2.2 ▸ hmem)).1
  have henter := (enterFences_spec ..).2.1 (congrArg fst he)
  rw [he] at hsame'
  rw [he, hleave.2.1, hleave.2.2] at henter
  exact {
    hsame'.toSameButReports with
    leaveAll_ok := hleave.1
    enterAll_ok := henter.1
    fenceCapacity := henter.2.1
    membership := henter.2.2
    journal := congrArg (· ++ [_]) hsame'.journal }

section

variable [LE F] [DecidableLE F] [Geometry F G] {o : MapOrder} {lat lon : F}

/-- **A report** that is refused changes nothing; an admitted one writes what its delta says, if
there is one. -/
theorem report_spec {r : Except LocError Unit} (h : (t.report o subject lat lon).1 = r) :
    match (motive := Except LocError Unit → Prop) r with
    | .error _ => (t.report o subject lat lon).2 = t
    | .ok _ => subject ≠ "" ∧ ∃ new, t.resolveFenceMembership lat lon = .ok new ∧
      ((t.openReport o subject lat lon new).exited = [] ∧ (t.report o subject lat lon).2 = t ∨
        Reported t (t.openReport o subject lat lon new) (t.report o subject lat lon).2) := by
  subst h
  unfold report readReport
  split_ifs with hs
  · rfl
  rcases hres : t.resolveFenceMembership lat lon with e | new
  · rfl
  dsimp only
  split_ifs with hnil
  · exact ⟨hs, new, rfl, .inl ⟨hnil.2, rfl⟩⟩
  split
  · next hfails => exact atomically_error hfails
  · next u hok =>
    have heq := atomically_ok hok
    have hreported := reportInTx_spec (congrArg fst heq)
    rw [heq] at hreported
    exact ⟨hs, new, rfl, .inr hreported⟩

end

end

end Tables

end Xolu.Loc
