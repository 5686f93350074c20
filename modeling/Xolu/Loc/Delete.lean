/-
# Deletion (pkg/loc/store.go, pkg/server/v2_loc_handlers.go)

`Delete` refuses a location if a subject is assigned to it or below it, and one with children
unless it is forced; then it deletes the row, the children first.  `handleLocFenceDelete` deletes
the row of a fence.  Both leave what belongs to the row: its counter and, of a fence, its box in
the R-tree.

`Deleted` says what is left of the locations: those that are not below the deleted one, that is,
whose parent links do not lead to it.  `LocOp` adds the two deletions to the commands of a tenant.
-/
import Xolu.Loc.Leaf

namespace Xolu.Loc

open List Keyed Relation Runs Tally

/-- Why `Delete` fails. -/
inductive DeleteError where
  | unknownLocation (location : String)
  | occupied (location : String)
  | hasChildren (location : String)
deriving DecidableEq, Repr

namespace Tables

variable {F G : Type}

variable (t : Tables F G)

/-- The children of a location. -/
def childKeys (key : Nat) : List Nat :=
  (t.locations.filter fun l => decide (l.parentKey = some key)).map Location.key

/-- The recursive query of `Delete`: a location and those below it, for so many rounds at most. -/
def subtreeUpTo (t : Tables F G) : Nat → Nat → List Nat
  | 0, _ => []
  | n + 1, key => key :: (t.childKeys key).flatMap (t.subtreeUpTo n)

/-- The location and those below it.  Children have greater keys, so that the rounds are enough. -/
def subtree (key : Nat) : List Nat := t.subtreeUpTo t.nextLocationKey key

/-- The id of a location of the subtree that a subject is assigned to. -/
def occupied (key : Nat) : Option String :=
  t.assignment.findSome? fun a =>
    if a.2 ∈ t.subtree key then (t.locationByKey a.2).map Location.id else none

/-- The row of a location deleted. -/
def removeLocation (key : Nat) : Tables F G :=
  { t with
    locations := t.locations.filter (·.key ≠ key)
    locationKeys := t.locationKeys.sublist (filter_sublist.map _)
    locationIDs := t.locationIDs.sublist (filter_sublist.map _)
    parents := fun l hl => t.parents l (mem_filter.mp hl).1 }

/-- `deleteSubtree`, for so many rounds at most. -/
def deleteSubtree : Nat → Nat → Tables F G → Tables F G
  | 0, _, t => t
  -- the children first, whose rows refer to this one
  | n + 1, key, t =>
    ((t.childKeys key).foldl (fun t child => deleteSubtree n child t) t).removeLocation key

def delete (id : String) (force : Bool) (t : Tables F G) : Except DeleteError Unit × Tables F G :=
  match t.locationByID id with
  | none => (.error (.unknownLocation id), t)
  | some l =>
    match t.occupied l.key with
    | some occupiedID => (.error (.occupied occupiedID), t)
    | none =>
      if t.childKeys l.key ≠ [] ∧ force = false then (.error (.hasChildren id), t)
      else if t.childKeys l.key ≠ [] then (.ok (), deleteSubtree t.nextLocationKey l.key t)
      else (.ok (), t.removeLocation l.key)

/-- The row of a fence deleted, as `handleLocFenceDelete` does. -/
def deleteFence (id : String) (t : Tables F G) : Except LocError Unit × Tables F G :=
  if t.fenceByID id = none then (.error (.unknownFence id), t)
  else (.ok (), { t with
    fences := t.fences.filter (·.id ≠ id)
    fenceKeys := t.fenceKeys.sublist (filter_sublist.map _)
    fenceIDs := t.fenceIDs.sublist (filter_sublist.map _) })

/-! ### What is deleted -/

variable {t t' : Tables F G} {key k : Nat}

/-- The parent links of `k` lead to `key`, or it is `key`. -/
def Below (t : Tables F G) (key k : Nat) : Prop := ReflTransGen t.Parent k key

theorem Parent.lt {child parent : Nat} (h : t.Parent child parent) : parent < child := by
  obtain ⟨l, hl, rfl, hp⟩ := h
  exact t.parents l hl parent hp

theorem Below.le (h : t.Below key k) : key ≤ k := by
  induction h with
  | refl => exact le_rfl
  | tail _ hlink ih => exact hlink.lt.le.trans ih

theorem mem_childKeys {child : Nat} : child ∈ t.childKeys key ↔ t.Parent child key := by
  simp only [childKeys, Parent, mem_map, mem_filter, decide_eq_true_eq]
  constructor
  · rintro ⟨l, ⟨hl, hp⟩, rfl⟩
    exact ⟨l, hl, rfl, hp⟩
  · rintro ⟨l, hl, rfl, hp⟩
    exact ⟨l, ⟨hl, hp⟩, rfl⟩

/-- What is below a location is that location or below a child of it. -/
theorem below_iff : t.Below key k ↔ k = key ∨ ∃ child ∈ t.childKeys key, t.Below child k := by
  unfold Below
  rw [ReflTransGen.cases_tail_iff]
  constructor
  · rintro (h | ⟨child, hbelow, hlink⟩)
    · exact .inl h.symm
    · exact .inr ⟨child, mem_childKeys.mpr hlink, hbelow⟩
  · rintro (h | ⟨child, hchild, hbelow⟩)
    · exact .inl h.symm
    · exact .inr ⟨child, hbelow, mem_childKeys.mp hchild⟩

/-- Two states that agree off the locations. -/
structure SameButLocations (t t' : Tables F G) : Prop where
  capacity : t'.capacity = t.capacity
  fences : t'.fences = t.fences
  rtree : t'.rtree = t.rtree
  fenceCapacity : t'.fenceCapacity = t.fenceCapacity
  membership : t'.membership = t.membership
  assignment : t'.assignment = t.assignment
  journal : t'.journal = t.journal

theorem SameButLocations.refl (t : Tables F G) : SameButLocations t t :=
  ⟨rfl, rfl, rfl, rfl, rfl, rfl, rfl⟩

theorem SameButLocations.trans {t'' : Tables F G} (h : SameButLocations t t')
    (h' : SameButLocations t' t'') : SameButLocations t t'' where
  capacity := h'.capacity.trans h.capacity
  fences := h'.fences.trans h.fences
  rtree := h'.rtree.trans h.rtree
  fenceCapacity := h'.fenceCapacity.trans h.fenceCapacity
  membership := h'.membership.trans h.membership
  assignment := h'.assignment.trans h.assignment
  journal := h'.journal.trans h.journal

/-- What `Delete` leaves: the locations that are not below the deleted one, and all else. -/
structure Deleted (t : Tables F G) (key : Nat) (t' : Tables F G) : Prop extends
    SameButLocations t t' where
  mem_locations : ∀ l, l ∈ t'.locations ↔ l ∈ t.locations ∧ ¬ t.Below key l.key

/-- The locations that are below none of some keys, and the parent links among them. -/
theorem below_of_kept {keys : List Nat}
    (h : ∀ l, l ∈ t'.locations ↔ l ∈ t.locations ∧ ∀ j ∈ keys, ¬ t.Below j l.key)
    (hk : ∀ j ∈ keys, ¬ t.Below j k) : t'.Below key k ↔ t.Below key k := by
  constructor
  · intro hbelow
    refine ReflTransGen.mono (fun child parent hlink => ?_) k key hbelow
    obtain ⟨l, hl, hrest⟩ := hlink
    exact ⟨l, ((h l).mp hl).1, hrest⟩
  · intro hbelow
    induction hbelow using ReflTransGen.head_induction_on with
    | refl => exact .refl
    | head hlink hrest ih =>
      obtain ⟨l, hl, rfl, hp⟩ := hlink
      refine .head ⟨l, (h l).mpr ⟨hl, hk⟩, rfl, hp⟩ (ih fun j hj hbelow => hk j hj ?_)
      exact .head ⟨l, hl, rfl, hp⟩ hbelow

variable {n : Nat}

/-- The children are deleted one after the other, each with what is below it. -/
theorem foldl_deleteSubtree {children done : List Nat}
    (ih : ∀ child ∈ children, ∀ t' : Tables F G, (∀ l ∈ t'.locations, l ∈ t.locations) →
      Deleted t' child (deleteSubtree n child t'))
    (hsame : SameButLocations t t')
    (hdone : ∀ l, l ∈ t'.locations ↔ l ∈ t.locations ∧ ∀ j ∈ done, ¬ t.Below j l.key) :
    let after := children.foldl (fun t child => deleteSubtree n child t) t'
    SameButLocations t after ∧ ∀ l, l ∈ after.locations ↔
      l ∈ t.locations ∧ ∀ j ∈ done ++ children, ¬ t.Below j l.key := by
  induction children generalizing t' done with
  | nil => simpa using ⟨hsame, hdone⟩
  | cons child children ihc =>
    rw [forall_mem_cons] at ih
    have hchild := ih.1 t' fun l hl => ((hdone l).mp hl).1
    rw [foldl_cons, append_cons]
    refine ihc ih.2 (hsame.trans hchild.toSameButLocations) fun l => ?_
    rw [hchild.mem_locations, hdone, and_assoc, forall_mem_append, forall_mem_singleton]
    refine and_congr_right fun _ => and_congr_right fun hl => ?_
    rw [below_of_kept hdone hl]

theorem deleted_deleteSubtree (h : ∀ l ∈ t.locations, l.key < n + key) :
    Deleted t key (deleteSubtree n key t) := by
  induction n generalizing key t with
  | zero =>
    refine ⟨.refl t, fun l => ?_⟩
    refine ⟨fun hl => ⟨hl, fun hbelow => ?_⟩, fun hl => hl.1⟩
    have hlt := h l hl
    have hle := hbelow.le
    omega
  | succ n ih =>
    have hfold := @foldl_deleteSubtree F G t t n (t.childKeys key) [] (fun child hchild t' ht' => by
      have hlt := (mem_childKeys.mp hchild).lt
      refine ih fun l hl => ?_
      have hl := h l (ht' l hl)
      omega) (.refl t) (by simp)
    refine ⟨hfold.1.trans ⟨rfl, rfl, rfl, rfl, rfl, rfl, rfl⟩, fun l => ?_⟩
    change l ∈ (List.foldl _ t (t.childKeys key)).locations.filter (·.key ≠ key) ↔ _
    rw [mem_filter, hfold.2, nil_append, decide_eq_true_eq, below_iff, and_assoc]
    push Not
    exact and_congr_right fun _ => and_comm

theorem lt_nextLocationKey {l : Location F} (hl : l ∈ t.locations) : l.key < t.nextLocationKey :=
  lt_nextKey (mem_map_of_mem hl)

/-- `Delete` is admitted: the location is there, the subtree is empty of subjects, and there are no
children or it is forced. -/
structure Deletable (t : Tables F G) (id : String) (force : Bool) (l : Location F) : Prop where
  found : t.locationByID id = some l
  vacant : t.occupied l.key = none
  cascades : t.childKeys l.key = [] ∨ force = true

variable {id : String}

/-- **An admitted deletion.** -/
theorem deleted_of_deletable {force : Bool} {l : Location F} (h : t.Deletable id force l) :
    (t.delete id force).1 = .ok () ∧ Deleted t l.key (t.delete id force).2 := by
  have hdeleted : Deleted t l.key (deleteSubtree t.nextLocationKey l.key t) :=
    deleted_deleteSubtree fun m hm => (lt_nextLocationKey hm).trans_le (Nat.le_add_right ..)
  unfold delete
  simp only [h.found, h.vacant]
  rcases hc : t.childKeys l.key with - | ⟨child, children⟩
  · -- without children the row alone is deleted, which is the same
    obtain ⟨n, hn⟩ : ∃ n, t.nextLocationKey = n + 1 := ⟨_, rfl⟩
    rw [hn, deleteSubtree, hc, foldl_nil] at hdeleted
    simpa using hdeleted
  · have hforce := h.cascades.resolve_left (by simp [hc])
    simpa [hforce] using hdeleted

theorem delete_of_not_deletable {force : Bool}
    (h : ∀ l, ¬ t.Deletable id force l) : (t.delete id force).2 = t := by
  unfold delete
  rcases hl : t.locationByID id with - | l
  · rfl
  dsimp only
  rcases ho : t.occupied l.key with - | occupiedID
  · split_ifs with hrefused hchildren
    · rfl
    · exact absurd ⟨hl, ho, .inr (by simpa [hchildren] using hrefused)⟩ (h l)
    · exact absurd ⟨hl, ho, .inl (by simpa using hchildren)⟩ (h l)
  · rfl

/-- What the deletion of a fence leaves. -/
structure FenceDeleted (t : Tables F G) (id : String) (t' : Tables F G) : Prop where
  fences : t'.fences = t.fences.filter (·.id ≠ id)
  locations : t'.locations = t.locations
  capacity : t'.capacity = t.capacity
  rtree : t'.rtree = t.rtree
  fenceCapacity : t'.fenceCapacity = t.fenceCapacity
  membership : t'.membership = t.membership
  assignment : t'.assignment = t.assignment
  journal : t'.journal = t.journal

theorem fenceDeleted_deleteFence {f : Fence G} (h : t.fenceByID id = some f) :
    (t.deleteFence id).1 = .ok () ∧ FenceDeleted t id (t.deleteFence id).2 := by
  unfold deleteFence
  rw [if_neg (by simp [h])]
  exact ⟨rfl, rfl, rfl, rfl, rfl, rfl, rfl, rfl, rfl⟩

theorem deleteFence_of_none (h : t.fenceByID id = none) : (t.deleteFence id).2 = t := by
  unfold deleteFence
  rw [if_pos h]

/-! ### Seats -/

theorem mem_subtreeUpTo (hn : 0 < n) (h : ∀ l ∈ t.locations, l.key < n + key) :
    k ∈ t.subtreeUpTo n key ↔ t.Below key k := by
  induction n generalizing key with
  | zero => cases hn
  | succ n ih =>
    rw [subtreeUpTo, mem_cons, mem_flatMap, below_iff]
    refine or_congr_right (exists_congr fun child => and_congr_right fun hchild => ?_)
    obtain ⟨l, hl, rfl, -⟩ := mem_childKeys.mp hchild
    have hlt := (mem_childKeys.mp hchild).lt
    have hbound := h l hl
    refine ih (by omega) fun m hm => ?_
    have hm := h m hm
    omega

/-- **The recursive query** finds what is below a location. -/
theorem mem_subtree_iff : k ∈ t.subtree key ↔ t.Below key k :=
  mem_subtreeUpTo (Nat.succ_pos _) fun _ hl =>
    (lt_nextLocationKey hl).trans_le (Nat.le_add_right ..)

instance (t : Tables F G) (key k : Nat) : Decidable (t.Below key k) :=
  decidable_of_iff _ mem_subtree_iff

end Tables

/-! ### The commands with the deletions -/

/-- The offsets and the rotation are numbers: SQLite stores NaN as NULL, which the columns do not
take. -/
def Placement.notNull {F : Type} [BEq F] (p : Placement F) : Bool :=
  p.offsetX == p.offsetX && p.offsetY == p.offsetY && p.offsetZ == p.offsetZ &&
    p.rotation == p.rotation

/-- A command that writes no NULL where there must be none. -/
def LocCmd.notNull {F G : Type} [BEq F] : LocCmd F G → Bool
  | .defLocation d => d.placement.notNull
  | .patch _ p => p.placement.all Placement.notNull
  | _ => true

/-- A step of a tenant, with the deletions. -/
inductive LocOp (F G : Type) where
  | cmd (c : LocCmd F G)
  | delete (id : String) (force : Bool)
  | deleteFence (id : String)

namespace LocSite

variable {F G : Type} [BEq F] [LE F] [DecidableLE F] [Geometry F G]

/-- The site after a step. -/
def stepOp (s : LocSite F G) : LocOp F G → LocSite F G
  | .cmd c => if c.notNull then s.step c else s
  | .delete id force => { s with tables := (s.tables.delete id force).2 }
  | .deleteFence id => { s with tables := (s.tables.deleteFence id).2 }

/-- **The walk up the tree ends** in every state: from some number of rounds on it finds the same
locations, those that the parent links reach. -/
theorem ancestors_run (tenant : String) (now : Int) (ops : List (LocOp F G)) (k : Nat) :
    let t := (run stepOp (init tenant now) ops).tables
    ∃ keys, (∀ n, k < n → t.ancestorsUpTo n k = keys) ∧
      ∀ a, a ∈ keys ↔ (t.locationByKey a).isSome ∧ ReflTransGen t.Parent k a :=
  ⟨_, fun _ h => Tables.ancestorsUpTo_of_lt h, fun _ => Tables.mem_ancestors_iff⟩

theorem stepOp_cmd {s : LocSite F G} {c : LocCmd F G} (h : c.notNull = true) :
    s.stepOp (.cmd c) = s.step c :=
  if_pos h

theorem stepOp_cmd_of_null {s : LocSite F G} {c : LocCmd F G} (h : c.notNull = false) :
    s.stepOp (.cmd c) = s :=
  if_neg (by simp [h])

end LocSite

/-- What a step does to the tables of a site. -/
inductive ChangeOp {F G : Type} [BEq F] [LE F] [DecidableLE F] [Geometry F G] (s : LocSite F G) :
    LocOp F G → Tables F G → Prop
  | refused {c} : ChangeOp s c s.tables
  | cmd {c t'} : c.notNull = true → Change s c t' → ChangeOp s (.cmd c) t'
  | deleted {id force l t'} : s.tables.Deletable id force l → s.tables.Deleted l.key t' →
      ChangeOp s (.delete id force) t'
  | fenceDeleted {id f t'} : s.tables.fenceByID id = some f → s.tables.FenceDeleted id t' →
      ChangeOp s (.deleteFence id) t'

/-- **A step** with the deletions does nothing that is not listed. -/
theorem LocSite.changeOp_stepOp {F G : Type} [BEq F] [LE F] [DecidableLE F] [Geometry F G]
    (s : LocSite F G) (c : LocOp F G) : ChangeOp s c (s.stepOp c).tables := by
  cases c with
  | cmd c =>
    rcases hnull : c.notNull with - | -
    · rw [stepOp_cmd_of_null hnull]
      exact .refused
    · rw [stepOp_cmd hnull]
      exact .cmd hnull (s.change_step c).1
  | delete id force =>
    change ChangeOp s _ (s.tables.delete id force).2
    by_cases h : ∃ l, s.tables.Deletable id force l
    · obtain ⟨l, hl⟩ := h
      exact .deleted hl (Tables.deleted_of_deletable hl).2
    · rw [Tables.delete_of_not_deletable (not_exists.mp h)]
      exact .refused
  | deleteFence id =>
    change ChangeOp s _ (s.tables.deleteFence id).2
    rcases h : s.tables.fenceByID id with - | f
    · rw [Tables.deleteFence_of_none h]
      exact .refused
    · exact .fenceDeleted h (Tables.fenceDeleted_deleteFence h).2

end Xolu.Loc
