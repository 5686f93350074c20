/-
# What the writes do

For each write of a transaction: who is attached afterwards, what is found under a reference, whose
container is whose, and how many subjects name another.  `containerOf` is a function of the
references, and every write leaves it as it is or changes it at one of them, so containment is
treated through `Function.update`.
-/
import Xolu.Obj.Store

namespace Xolu.Obj

open Function List Graphalgo Keyed

namespace Tables

variable {F : Type} {t : Tables F} {ref container x : String} {p : Position}

/-! ### Lookups -/

theorem mem_of_subject {y : Subject F} (h : t.subject ref = some y) :
    y ∈ t.subjects ∧ y.ref = ref :=
  ⟨mem_of_find?_eq_some h, by simpa using find?_some h⟩

theorem subject_of_mem {y : Subject F} (h : y ∈ t.subjects) : t.subject y.ref = some y :=
  t.keys.find?_of_mem h

theorem isSome_subject : (t.subject ref).isSome ↔ t.Attached ref := by
  unfold subject Attached
  rw [find?_isSome, mem_map]
  simp only [decide_eq_true_eq]

theorem positionKeys (t : Tables F) : UniqueKey Position.subjectRef t.positions := by
  unfold UniqueKey
  rw [t.positioned]
  exact t.keys

theorem mem_of_position (h : t.position ref = some p) : p ∈ t.positions ∧ p.subjectRef = ref :=
  ⟨mem_of_find?_eq_some h, by simpa using find?_some h⟩

theorem position_of_mem (h : p ∈ t.positions) : t.position p.subjectRef = some p :=
  t.positionKeys.find?_of_mem h

/-- The attached subjects are those with a position. -/
theorem isSome_position : (t.position ref).isSome ↔ t.Attached ref := by
  unfold position Attached
  rw [← t.positioned, find?_isSome, mem_map]
  simp only [decide_eq_true_eq]

theorem Attached.exists_position (h : t.Attached ref) : ∃ p, t.position ref = some p :=
  Option.isSome_iff_exists.mp (isSome_position.mpr h)

theorem position_eq_none (h : ¬ t.Attached ref) : t.position ref = none := by
  rwa [← isSome_position, Option.not_isSome_iff_eq_none] at h

theorem containerOf_eq_none (h : ¬ t.Attached ref) : t.containerOf ref = none := by
  rw [containerOf, position_eq_none h, Option.bind_none]

/-- What is in a container is attached. -/
theorem attached_of_containerOf (h : t.containerOf x = some ref) : t.Attached x := by
  by_contra hx
  rw [containerOf_eq_none hx] at h
  cases h

theorem containerOf_eq_some : t.containerOf x = some ref ↔
    ∃ p ∈ t.positions, p.subjectRef = x ∧ p.containsRef = some ref := by
  unfold containerOf
  rw [Option.bind_eq_some_iff]
  constructor
  · rintro ⟨p, hp, hc⟩
    obtain ⟨hmem, hkey⟩ := mem_of_position hp
    exact ⟨p, hmem, hkey, hc⟩
  · rintro ⟨p, hmem, rfl, hc⟩
    exact ⟨p, position_of_mem hmem, hc⟩

/-- Nothing names a subject that counts no contents. -/
theorem contentsCount_eq_zero : t.contentsCount ref = 0 ↔ ∀ x, t.containerOf x ≠ some ref := by
  unfold contentsCount
  rw [countP_eq_zero]
  constructor
  · intro h x hx
    obtain ⟨p, hmem, -, hc⟩ := containerOf_eq_some.mp hx
    exact h p hmem (decide_eq_true hc)
  · intro h p hmem hc
    exact h p.subjectRef (containerOf_eq_some.mpr ⟨p, hmem, rfl, of_decide_eq_true hc⟩)

/-! ### Journal rows and subject columns -/

variable (row : JournalRow)

@[simp] theorem subject_append : (t.append row).subject ref = t.subject ref :=
  rfl

@[simp] theorem position_append : (t.append row).position ref = t.position ref := rfl

@[simp] theorem attached_append : (t.append row).Attached ref ↔ t.Attached ref := Iff.rfl

@[simp] theorem containerOf_append : (t.append row).containerOf = t.containerOf := rfl

@[simp] theorem contentsCount_append : (t.append row).contentsCount = t.contentsCount := rfl

section Alter

variable {f : Subject F → Subject F} {hf : ∀ x, (f x).ref = x.ref}

theorem subject_alter : (t.alter ref f hf).subject x =
    (t.subject x).map fun y => if y.ref = ref then f y else y := by
  change (t.subjects.map _).find? _ = _
  rw [find?_map]
  congr 1
  congr 1
  funext y
  rw [comp_apply]
  split
  · rw [hf]
  · rfl

@[simp] theorem attached_alter : (t.alter ref f hf).Attached x ↔ t.Attached x := by
  rw [← isSome_subject, ← isSome_subject, subject_alter, Option.isSome_map]

end Alter

/-- What a subject counts. -/
def countOf (t : Tables F) (ref : String) : Option Int := (t.subject ref).map Subject.curCount

theorem isSome_countOf : (t.countOf ref).isSome ↔ t.Attached ref := by
  rw [countOf, Option.isSome_map, isSome_subject]

@[simp] theorem countOf_append (row : JournalRow) : (t.append row).countOf = t.countOf := rfl

@[simp] theorem attached_charge {d : Int} : (t.charge ref d).Attached x ↔ t.Attached x :=
  attached_alter

theorem subject_charge {d : Int} : (t.charge ref d).subject x =
    (t.subject x).map fun y => { y with curCount := y.curCount + if x = ref then d else 0 } := by
  unfold charge
  rw [subject_alter]
  refine Option.map_congr fun y hy => ?_
  obtain ⟨-, rfl⟩ := mem_of_subject hy
  split
  · rfl
  · rw [Int.add_zero]

@[simp] theorem attached_relinquish : (t.relinquish ref).Attached x ↔ t.Attached x := by
  unfold relinquish
  split
  · exact Iff.rfl
  · exact attached_charge

@[simp] theorem positions_relinquish : (t.relinquish ref).positions = t.positions := by
  unfold relinquish
  split <;> rfl

theorem position_relinquish : (t.relinquish ref).position x = t.position x := by
  unfold position
  rw [positions_relinquish]

@[simp] theorem containerOf_relinquish : (t.relinquish ref).containerOf = t.containerOf := by
  funext x
  rw [containerOf, position_relinquish, containerOf]

@[simp] theorem contentsCount_relinquish : (t.relinquish ref).contentsCount = t.contentsCount := by
  funext x
  rw [contentsCount, positions_relinquish, contentsCount]

@[simp] theorem journal_relinquish : (t.relinquish ref).journal = t.journal := by
  unfold relinquish
  split <;> rfl

theorem subject_relinquish : (t.relinquish ref).subject x = (t.subject x).map fun y =>
    { y with curCount := y.curCount - if t.containerOf ref = some x then 1 else 0 } := by
  unfold relinquish
  split
  · next h =>
    simp only [h, reduceCtorEq, if_false, Int.sub_zero]
    exact Option.map_id'.symm
  · next prev h =>
    rw [subject_charge, h]
    refine Option.map_congr fun y _ => ?_
    by_cases hx : x = prev
    · simp [hx, sub_eq_add_neg]
    · simp [hx, Ne.symm hx]

theorem countOf_relinquish : (t.relinquish ref).countOf x =
    (t.countOf x).map fun n => n - if t.containerOf ref = some x then 1 else 0 := by
  rw [countOf, subject_relinquish, countOf, Option.map_map, Option.map_map]
  rfl

/-! ### Positions -/

@[simp] theorem attached_setPosition : (t.setPosition p).Attached x ↔ t.Attached x := Iff.rfl

theorem position_setPosition (h : t.Attached p.subjectRef) :
    (t.setPosition p).position = update t.position p.subjectRef (some p) := by
  obtain ⟨q, hq⟩ := h.exists_position
  obtain ⟨hmem, hkey⟩ := mem_of_position hq
  funext x
  by_cases hx : x = p.subjectRef
  · subst hx
    rw [update_self]
    exact find?_put_self hmem hkey
  · rw [update_of_ne hx]
    exact find?_put_of_ne (Ne.symm hx)

/-- The update of a subject that is not attached matches no row. -/
theorem setPosition_of_not_attached (h : ¬ t.Attached p.subjectRef) :
    (t.setPosition p).positions = t.positions := by
  refine put_of_notMem fun hmem => h ?_
  rwa [t.positioned] at hmem

theorem containerOf_setPosition (h : t.Attached p.subjectRef) :
    (t.setPosition p).containerOf = update t.containerOf p.subjectRef p.containsRef := by
  funext x
  rw [containerOf, position_setPosition h]
  by_cases hx : x = p.subjectRef
  · subst hx
    rw [update_self, update_self, Option.bind_some]
  · rw [update_of_ne hx, update_of_ne hx, containerOf]

/-- A position that is overwritten is no longer counted, and the new one is. -/
theorem contentsCount_setPosition (h : t.Attached p.subjectRef) (x : String) :
    (t.setPosition p).contentsCount x + (if t.containerOf p.subjectRef = some x then 1 else 0) =
      t.contentsCount x + if p.containsRef = some x then 1 else 0 := by
  obtain ⟨q, hq⟩ := h.exists_position
  obtain ⟨hmem, hkey⟩ := mem_of_position hq
  have hcount := countP_put (fun r : Position => decide (r.containsRef = some x))
    t.positionKeys hmem hkey
  simp only [decide_eq_true_eq] at hcount
  rw [containerOf, hq, Option.bind_some]
  exact hcount

/-! ### New subjects -/

section Insert

variable {capacity : Capacity F} {h : ¬ t.Attached ref}

@[simp] theorem attached_insert :
    (t.insert ref capacity h).Attached x ↔ t.Attached x ∨ x = ref := by
  simp [Attached, insert]

theorem subject_insert : (t.insert ref capacity h).subject x =
    if x = ref then some ⟨ref, capacity, 0, false⟩ else t.subject x :=
  @find?_concat _ _ Subject.ref t.subjects ⟨ref, capacity, 0, false⟩ _
    (fun _ hy heq => h (mem_map.mpr ⟨_, hy, heq⟩)) x

theorem countOf_insert : (t.insert ref capacity h).countOf x =
    if x = ref then some 0 else t.countOf x := by
  rw [countOf, subject_insert]
  split <;> rfl

theorem position_insert : (t.insert ref capacity h).position x =
    if x = ref then some ⟨ref, .unassigned, none, none, by simp⟩ else t.position x := by
  refine @find?_concat _ _ Position.subjectRef t.positions
    ⟨ref, .unassigned, none, none, by simp⟩ _ (fun q hq heq => h ?_) x
  rw [Attached, ← t.positioned]
  exact mem_map.mpr ⟨q, hq, heq⟩

/-- A new subject is in no container. -/
@[simp] theorem containerOf_insert : (t.insert ref capacity h).containerOf = t.containerOf := by
  funext x
  rw [containerOf, position_insert]
  split_ifs with hx
  · rw [hx, containerOf_eq_none h, Option.bind_some]
  · rfl

@[simp] theorem contentsCount_insert :
    (t.insert ref capacity h).contentsCount = t.contentsCount := by
  funext x
  simp [contentsCount, insert]

end Insert

/-! ### Deleted subjects -/

@[simp] theorem attached_remove : (t.remove ref).Attached x ↔ t.Attached x ∧ x ≠ ref := by
  simp only [Attached, remove, mem_map, mem_filter, decide_eq_true_eq]
  constructor
  · rintro ⟨y, ⟨hy, hne⟩, rfl⟩
    exact ⟨⟨y, hy, rfl⟩, hne⟩
  · rintro ⟨⟨y, hy, rfl⟩, hne⟩
    exact ⟨y, ⟨hy, hne⟩, rfl⟩

theorem countOf_remove : (t.remove ref).countOf x = if x = ref then none else t.countOf x := by
  have hfind : (t.remove ref).subject x = if x = ref then none else t.subject x :=
    find?_filter_ne x ref
  rw [countOf, hfind]
  split <;> rfl

theorem position_remove : (t.remove ref).position = update t.position ref none := by
  funext x
  rw [update_apply]
  exact find?_filter_ne x ref

theorem containerOf_remove : (t.remove ref).containerOf = update t.containerOf ref none := by
  funext x
  rw [containerOf, position_remove]
  by_cases hx : x = ref
  · rw [hx, update_self, update_self, Option.bind_none]
  · rw [update_of_ne hx, update_of_ne hx, containerOf]

theorem contentsCount_remove (x : String) : (t.remove ref).contentsCount x +
    (if t.containerOf ref = some x then 1 else 0) = t.contentsCount x := by
  have hcount := countP_filter_ne (fun p : Position => decide (p.containsRef = some x))
    t.positionKeys ref
  change _ + (if (t.position ref).any _ then 1 else 0) = _ at hcount
  rw [containerOf]
  rcases hp : t.position ref with - | p
  · rw [hp, Option.any_none] at hcount
    rwa [Option.bind_none, if_neg nofun]
  · rw [hp, Option.any_some] at hcount
    simp only [decide_eq_true_eq] at hcount
    rwa [Option.bind_some]

/-! ### The transactions -/

/-- A `place` is admitted. -/
@[mk_iff] structure Placeable (t : Tables F) (ref container : String) : Prop where
  room : ∃ y ∈ t.subject container, y.HasRoom
  apart : t.cycleSearch ref container = some (.ok false)
  attached : t.Attached ref

instance : Decidable (t.Placeable ref container) :=
  decidable_of_iff _ (t.placeable_iff ref container).symm

theorem Placeable.container_attached (h : t.Placeable ref container) : t.Attached container := by
  obtain ⟨y, hy, -⟩ := h.room
  exact isSome_subject.mp (Option.isSome_of_mem hy)

/-- `moveToContainerInTx` makes its writes if it is admitted, and otherwise fails. -/
theorem moveToContainerInTx_eq (t : Tables F) (ref container : String) :
    (t.Placeable ref container ∧
      t.moveToContainerInTx ref container = .ok (t.place ref container)) ∨
    (¬ t.Placeable ref container ∧ ∃ e, t.moveToContainerInTx ref container = .error e) := by
  unfold moveToContainerInTx
  rcases hy : t.subject container with - | y
  · refine .inr ⟨fun h => ?_, _, rfl⟩
    obtain ⟨y, hroom, -⟩ := h.room
    rw [hy] at hroom
    cases hroom
  · have hroom : (∃ z ∈ t.subject container, z.HasRoom) ↔ y.HasRoom := by simp [hy]
    by_cases hfull : y.HasRoom
    · dsimp only
      rw [if_neg (not_not.mpr hfull)]
      split
      · next hcycle => exact .inr ⟨fun h => hcycle h.apart, _, rfl⟩
      · next hcycle =>
        by_cases hattached : t.Attached ref
        · rw [if_neg (not_not.mpr hattached)]
          exact .inl ⟨⟨hroom.mpr hfull, not_not.mp hcycle, hattached⟩, rfl⟩
        · rw [if_pos hattached]
          exact .inr ⟨fun h => hattached h.attached, _, rfl⟩
    · dsimp only
      rw [if_pos hfull]
      exact .inr ⟨fun h => hfull (hroom.mp h.room), _, rfl⟩

section Place

variable (hattached : t.Attached ref)

@[simp] theorem attached_place : (t.place ref container).Attached x ↔ t.Attached x := by
  simp [place]

include hattached

theorem position_place : (t.place ref container).position =
    update t.position ref (some ⟨ref, .obj, none, some container, by simp⟩) := by
  rw [show (t.place ref container).position = _ from position_setPosition (by simpa)]
  congr 1
  funext x
  exact position_relinquish

theorem containerOf_place :
    (t.place ref container).containerOf = update t.containerOf ref (some container) := by
  unfold place
  rw [containerOf_append, containerOf_setPosition (by simpa), containerOf_relinquish]
  rfl

theorem contentsCount_place (container x : String) : (t.place ref container).contentsCount x +
    (if t.containerOf ref = some x then 1 else 0) =
      t.contentsCount x + if container = x then 1 else 0 := by
  have hcount := contentsCount_setPosition (t := (t.charge container 1).relinquish ref)
    (p := ⟨ref, .obj, none, some container, by simp⟩) (by simpa) x
  rw [containerOf_relinquish, contentsCount_relinquish] at hcount
  simp only [Option.some.injEq] at hcount
  exact hcount

omit hattached in
theorem subject_place : (t.place ref container).subject x = (t.subject x).map fun y =>
    { y with curCount := y.curCount + (if x = container then 1 else 0) -
      if t.containerOf ref = some x then 1 else 0 } := by
  change ((t.charge container 1).relinquish ref).subject x = _
  rw [subject_relinquish, subject_charge, Option.map_map]
  rfl

omit hattached in
theorem countOf_place : (t.place ref container).countOf x = (t.countOf x).map fun n =>
    n + (if x = container then 1 else 0) - if t.containerOf ref = some x then 1 else 0 := by
  rw [countOf, subject_place, countOf, Option.map_map, Option.map_map]
  rfl

end Place

section Relocate

variable {r : Relocation}

/-- A subject that is moved out is in no container, and one without a row was in none. -/
theorem containerOf_relocateInTx :
    (t.relocateInTx r).containerOf = update t.containerOf r.subjectRef none := by
  by_cases h : t.Attached r.subjectRef
  · exact containerOf_setPosition (p := r.position) h
  · have hsame : (t.relocateInTx r).containerOf = t.containerOf := by
      funext x
      change (List.find? _ (t.setPosition r.position).positions).bind _ = _
      rw [setPosition_of_not_attached h]
      rfl
    rw [hsame, ← containerOf_eq_none h, update_eq_self]

theorem contentsCount_relocateInTx (x : String) : (t.relocateInTx r).contentsCount x +
    (if t.containerOf r.subjectRef = some x then 1 else 0) = t.contentsCount x := by
  by_cases h : t.Attached r.subjectRef
  · exact contentsCount_setPosition (p := r.position) h x
  · have hsame : (t.relocateInTx r).contentsCount x = t.contentsCount x := by
      change List.countP _ (t.setPosition r.position).positions = _
      rw [setPosition_of_not_attached h]
      rfl
    rw [hsame, containerOf_eq_none h, if_neg (by simp), Nat.add_zero]

end Relocate

@[simp] theorem attached_detached : (t.detached ref).Attached x ↔ t.Attached x ∧ x ≠ ref :=
  attached_remove

theorem countOf_detached : (t.detached ref).countOf x = if x = ref then none else t.countOf x :=
  countOf_remove

theorem containerOf_detached : (t.detached ref).containerOf = update t.containerOf ref none :=
  containerOf_remove

theorem contentsCount_detached (t : Tables F) (ref x : String) : (t.detached ref).contentsCount x +
    (if t.containerOf ref = some x then 1 else 0) = t.contentsCount x :=
  contentsCount_remove x

end Tables

end Xolu.Obj
