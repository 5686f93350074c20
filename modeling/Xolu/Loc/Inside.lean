/-
# Subjects inside fences

A subject is inside a fence because its leaf is below the location that the fence is aligned
to, or because a report has recorded it there.  `around` and `recorded` count the two, a fence
key at a time, and the lemmas say what each command does to them and to the counters.

`FenceRows` is what holds of the rows of fences in every state: each fence has a counter, the
R-tree names fences only, and recorded keys fit into a `FenceKey`.
-/
import Xolu.Loc.Leaf

namespace Xolu.Loc

open List Keyed Runs Tally Fence

@[simp] theorem uint32_uint32 (n : Nat) : uint32 (uint32 n) = uint32 n := Nat.mod_mod ..

namespace Tables

variable {F G : Type} {t t' : Tables F G}

/-! ### The tree and the alignment -/

variable {k : Nat}

/-- The walk up looks at the parents of smaller keys only. -/
theorem ancestors_congr (h : ∀ j ≤ k, (t'.locationByKey j).map Location.parentKey =
      (t.locationByKey j).map Location.parentKey) : t'.ancestors k = t.ancestors k := by
  induction k using Nat.strong_induction_on with
  | _ k ih =>
    have hk := h k le_rfl
    rcases hl : t.locationByKey k with - | l
    · rw [hl] at hk
      rw [ancestors_of_none hl, ancestors_of_none (Option.map_eq_none_iff.mp hk)]
    · rw [hl] at hk
      obtain ⟨l', hl', hparent⟩ := Option.map_eq_some_iff.mp hk
      rw [ancestors_of_some hl, ancestors_of_some hl', hparent]
      rcases hp : l.parentKey with - | p
      · rfl
      · obtain ⟨hmem, hkey⟩ := mem_of_locationByKey hl
        have hlt : p < k := hkey ▸ t.parents l hmem p hp
        exact congrArg (k :: ·) (ih p hlt fun j hj => h j (hj.trans hlt.le))

theorem ancestors_of_locations (h : t'.locations = t.locations) (k : Nat) :
    t'.ancestors k = t.ancestors k := by
  apply ancestors_congr
  intro j _
  unfold locationByKey
  rw [h]

/-- The keys of the fences and what they are aligned to. -/
def alignments (t : Tables F G) : List (Nat × Option Nat) :=
  t.fences.map fun f => (f.key, f.alignedLocationKey)

/-- The fences around a leaf follow from the alignments and the walk up. -/
theorem treeAlignedFenceKeys_eq (t : Tables F G) (k : Nat) : t.treeAlignedFenceKeys k =
      (t.alignments.filter fun f => decide (∃ a ∈ f.2, a ∈ t.ancestors k)).map (uint32 ·.1) := by
  unfold treeAlignedFenceKeys alignments Around
  rw [filter_map, map_map]
  rfl

theorem treeAlignedFenceKeys_congr (halign : t'.alignments = t.alignments)
    (hanc : t'.ancestors k = t.ancestors k) :
    t'.treeAlignedFenceKeys k = t.treeAlignedFenceKeys k := by
  rw [treeAlignedFenceKeys_eq, treeAlignedFenceKeys_eq, halign, hanc]

theorem treeAlignedFenceKeys_of_rows (hloc : t'.locations = t.locations)
    (hfences : t'.fences = t.fences) (k : Nat) :
    t'.treeAlignedFenceKeys k = t.treeAlignedFenceKeys k := by
  apply treeAlignedFenceKeys_congr _ (ancestors_of_locations hloc k)
  unfold alignments
  rw [hfences]

theorem Upkeep.ancestors (h : Upkeep t t') (k : Nat) : t'.ancestors k = t.ancestors k := by
  have hfind : ∀ (t : Tables F G) j, (t.locationByKey j).map Location.parentKey =
      ((t.locations.map fun l => (l.key, l.id, l.parentKey)).find? fun l =>
        decide (l.1 = j)).map fun l => l.2.2 := fun t j => by
    rw [find?_map, Option.map_map]
    rfl
  apply ancestors_congr
  intro j _
  rw [hfind, hfind, h.tree]

/-- A new location is above none that were there. -/
theorem ancestors_insertLocation {d : LocationDef F} {hid hcap} (hk : k < t.nextLocationKey) :
    (t.insertLocation d hid hcap).ancestors k = t.ancestors k := by
  apply ancestors_congr
  intro j hj
  unfold locationByKey insertLocation
  have hne : t.nextLocationKey ≠ j := (hj.trans_lt hk).ne'
  simp [hne]

variable {aligned : Option String} {id : String}

theorem ancestors_insertFence {hid hcap} (k : Nat) :
    (t.insertFence id aligned hid hcap).ancestors k = t.ancestors k :=
  @ancestors_of_locations F G t (t.insertFence id aligned hid hcap) rfl k

/-- A new fence that is around a leaf is the last of those around it. -/
theorem treeAlignedFenceKeys_insertFence {hid hcap}
    (k : Nat) : (t.insertFence id aligned hid hcap).treeAlignedFenceKeys k =
      t.treeAlignedFenceKeys k ++ if ∃ a ∈ t.alignedKeyOf aligned, a ∈ t.ancestors k then
        [uint32 t.nextFenceKey] else [] := by
  have halign : (t.insertFence id aligned hid hcap).alignments =
      t.alignments ++ [(t.nextFenceKey, t.alignedKeyOf aligned)] := map_append ..
  rw [treeAlignedFenceKeys_eq, treeAlignedFenceKeys_eq, halign, ancestors_insertFence,
    filter_append, map_append, filter_singleton]
  by_cases h : ∃ a ∈ t.alignedKeyOf aligned, a ∈ t.ancestors k
  · rw [if_pos h, decide_eq_true h]
    rfl
  · rw [if_neg h, decide_eq_false h]
    rfl

/-! ### The rows of fences -/

/-- What holds of the rows of fences in every state. -/
structure FenceRows (t : Tables F G) : Prop where
  counters : t.fenceCapacity.map Counter.key = t.fences.map key
  rtree : ∀ e ∈ t.rtree, e.1 ∈ t.fences.map key
  narrow : ∀ m ∈ t.membership, uint32 m.2 = m.2

theorem fenceRows_empty : FenceRows (empty : Tables F G) where
  counters := rfl
  rtree _ he := nomatch he
  narrow _ hm := nomatch hm

section

variable [LE F] [DecidableLE F] [Geometry F G] {lat lon : F} {new : List Nat}

theorem narrow_of_resolve (h : t.resolveFenceMembership lat lon = .ok new) :
    ∀ k ∈ new, uint32 k = k := by
  cases h.symm.trans (resolveLoop_of_there (there_of_resolveLoop h))
  intro k hk
  obtain ⟨fk, -, rfl⟩ := mem_map.mp hk
  exact uint32_uint32 fk

/-- A coordinate is resolved if the R-tree names fences only. -/
theorem FenceRows.exists_resolve (hr : FenceRows t) (lat lon : F) :
    ∃ new, t.resolveFenceMembership lat lon = .ok new := by
  refine ⟨_, resolveLoop_of_there fun fk hfk => ?_⟩
  obtain ⟨e, he, rfl⟩ := mem_map.mp hfk
  exact hr.rtree e (mem_filter.mp he).1

end

theorem FenceRows.mem_currentFenceKeys (hr : FenceRows t) {subject : String} :
    k ∈ t.currentFenceKeys subject ↔ (subject, k) ∈ t.membership := by
  unfold currentFenceKeys
  rw [mem_map]
  constructor
  · rintro ⟨m, hm, rfl⟩
    obtain ⟨hmem, hs⟩ := mem_filter.mp hm
    rw [hr.narrow m hmem, ← of_decide_eq_true hs]
    exact hmem
  · intro hmem
    exact ⟨(subject, k), mem_filter.mpr ⟨hmem, decide_eq_true rfl⟩, hr.narrow _ hmem⟩

theorem Upkeep.fenceKeys (h : Upkeep t t') : t'.fences.map key = t.fences.map key := by
  have hkeys := congrArg (List.map Prod.fst) h.alignment
  rwa [map_map, map_map] at hkeys

theorem FenceRows.upkeep (hr : FenceRows t) (h : Upkeep t t') : FenceRows t' where
  counters := by rw [h.fenceCapacityKeys, h.fenceKeys, hr.counters]
  rtree e he := by
    rw [h.fenceKeys]
    rcases h.rtree e he with he | he
    · exact hr.rtree e he
    · exact he
  narrow := h.membership ▸ hr.narrow

theorem FenceRows.insertFence (hr : FenceRows t)
    {hid hcap} : FenceRows (t.insertFence id aligned hid hcap) where
  counters := by
    change (t.fenceCapacity ++ [_]).map Counter.key = (t.fences ++ [_]).map key
    rw [map_append, map_append, hr.counters]
    rfl
  rtree e he := by
    change e.1 ∈ (t.fences ++ [_]).map key
    rw [map_append]
    exact mem_append_left _ (hr.rtree e he)
  narrow := hr.narrow

variable {p : MoveParams} {l : Location F}

theorem FenceRows.moved (hr : FenceRows t) (h : Moved t p l t') : FenceRows t' where
  counters := by rw [h.fenceCapacity, keys_enterAll, keys_leaveAll, h.fences, hr.counters]
  rtree e he := by
    rw [h.fences]
    exact hr.rtree e (h.rtree ▸ he)
  narrow := h.membership ▸ hr.narrow

variable {r : OpenReport F}

theorem FenceRows.reported (hr : FenceRows t) (h : Reported t r t')
    (hnarrow : ∀ k ∈ r.entered, uint32 k = k) : FenceRows t' where
  counters := by rw [h.fenceKeys, h.fences, hr.counters]
  rtree e he := by
    rw [h.fences]
    exact hr.rtree e (h.rtree ▸ he)
  narrow m hm := by
    rw [h.membership, mem_append] at hm
    rcases hm with hm | hm
    · exact hr.narrow m (mem_filter.mp hm).1
    · obtain ⟨k, hk, rfl⟩ := mem_map.mp hm
      exact hnarrow k hk

/-! ### Counting the subjects inside -/

/-- The number of subjects whose leaf the fences of a key are around. -/
def around (t : Tables F G) (k : Nat) : Nat :=
  t.assignedTo fun leaf => decide (k ∈ t.treeAlignedFenceKeys leaf)

/-- The number of subjects that are recorded in the fence of a key. -/
def recorded (t : Tables F G) (k : Nat) : Nat := t.membership.countP fun m => m.2 == k

/-- The same assignment, and the same fences around it. -/
theorem around_congr (hassign : t'.assignment = t.assignment)
    (hkeys : ∀ a ∈ t.assignment, t'.treeAlignedFenceKeys a.2 = t.treeAlignedFenceKeys a.2)
    (k : Nat) : t'.around k = t.around k := by
  unfold around assignedTo
  rw [hassign]
  refine countP_congr fun a ha => ?_
  dsimp only
  rw [hkeys a ha]

/-- A report records what it enters and drops what it exits. -/
theorem Reported.recorded (h : Reported t r t')
    (hexited : ∀ k ∈ r.exited, (r.subject, k) ∈ t.membership) (k : Nat) :
    t'.recorded k + r.exited.count k = t.recorded k + r.entered.count k := by
  have hdropped : (t.membership.filter fun m => decide (m.1 = r.subject ∧ m.2 ∈ r.exited)).Perm
      (r.exited.map (r.subject, ·)) := by
    refine (perm_ext_iff_of_nodup (t.membershipKeys.filter _) ?_).mpr fun m => ?_
    · exact r.exitedNodup.map fun _ _ hab => congrArg Prod.snd hab
    · rw [mem_filter, decide_eq_true_eq, mem_map]
      constructor
      · rintro ⟨-, hs, hk⟩
        exact ⟨m.2, hk, Prod.ext hs.symm rfl⟩
      · rintro ⟨j, hj, rfl⟩
        exact ⟨hexited j hj, rfl, hj⟩
  have hcount : ∀ ks : List Nat, (ks.map (r.subject, ·)).countP (·.2 == k) = ks.count k := by
    intro ks
    rw [countP_map]
    rfl
  unfold Tables.recorded
  rw [h.membership, countP_append, hcount, Nat.add_right_comm]
  refine congrArg (· + r.entered.count k) ?_
  rw [countP_eq_countP_filter_add t.membership (fun m => m.2 == k)
    (fun m => decide (m.1 = r.subject ∧ m.2 ∈ r.exited)), hdropped.countP_eq, hcount, Nat.add_comm]
  simp only [decide_not]

theorem Reported.countOf_fenceCapacity (h : Reported t r t') (k : Nat) :
    countOf t'.fenceCapacity k + r.exited.count k =
      countOf t.fenceCapacity k + r.entered.count k := by
  rw [h.fenceCapacity]
  exact countOf_enterAll_leaveAll h.leaveAll_ok h.enterAll_ok k

theorem Moved.recorded (h : Moved t p l t') (k : Nat) : t'.recorded k = t.recorded k := by
  unfold Tables.recorded
  rw [h.membership]

theorem Moved.countOf_fenceCapacity (h : Moved t p l t') (k : Nat) :
    countOf t'.fenceCapacity k + p.exited.count k =
      countOf t.fenceCapacity k + p.entered.count k := by
  rw [h.fenceCapacity]
  exact countOf_enterAll_leaveAll h.leaveAll_ok h.enterAll_ok k

variable {subject : String} {lat lon : F}

theorem mem_originFences : k ∈ t.originFences subject ↔
      ∃ leaf, t.assigned subject = some leaf ∧ k ∈ t.treeAlignedFenceKeys leaf := by
  unfold originFences
  cases t.assigned subject <;> simp

/-- A move takes the subject out of the fences around its leaf and into those around the next. -/
theorem Moved.around (h : Moved t p l t') (k : Nat) :
    t'.around k + (if k ∈ t.originFences p.subjectRef then 1 else 0) =
      t.around k + if k ∈ t.treeAlignedFenceKeys l.key then 1 else 0 := by
  have hcount := h.assignedTo fun leaf => decide (k ∈ t.treeAlignedFenceKeys leaf)
  unfold Tables.around
  simp only [treeAlignedFenceKeys_of_rows h.locations h.fences]
  rw [← if_congr (decide_eq_true_iff (p := k ∈ t.treeAlignedFenceKeys l.key)) rfl rfl, ← hcount]
  refine congrArg (_ + ·) (if_congr ?_ rfl rfl)
  rw [mem_originFences]
  cases t.assigned p.subjectRef <;> simp

variable {o : MapOrder}

/-- What a move without keys enters and exits. -/
theorem Moved.of_withDelta {p' : MoveParams} (hnil : p.entered = [] ∧ p.exited = [])
    (hp : t.withDelta o p = .ok p') (h : Moved t p' l t') : t.locationByID p.toLocationID = some l ∧
      p'.enteredFenceKeys =
        slice (delta o (t.treeAlignedFenceKeys l.key) (t.originFences p.subjectRef)).1 ∧
      p'.exitedFenceKeys =
        slice (delta o (t.treeAlignedFenceKeys l.key) (t.originFences p.subjectRef)).2 := by
  obtain ⟨⟨-, hto⟩, hderived⟩ := withDelta_spec hp
  obtain ⟨l', hl', hkeys⟩ := hderived hnil
  cases hl'.symm.trans (hto ▸ h.destination)
  exact ⟨hl', hkeys⟩

/-- What a report enters is not recorded, and what it exits is. -/
theorem FenceRows.mem_openReport (hr : FenceRows t) {new : List Nat} :
    let r := t.openReport o subject lat lon new
    (k ∈ r.entered ↔ k ∈ new ∧ (subject, k) ∉ t.membership) ∧
      (k ∈ r.exited ↔ (subject, k) ∈ t.membership ∧ k ∉ new) := by
  rw [← hr.mem_currentFenceKeys]
  exact ⟨mem_delta_fst, mem_delta_snd⟩

/-! ### Refusals -/

variable {rows : List (Counter Nat)}

/-- Fences can be entered after others have been left if there is room for them. -/
theorem enterAll_delta_ok_iff {new old : List Nat} :
    (enterAll (delta o new old).1 (leaveAll (delta o new old).2 rows).2).1 = .ok () ↔
      ∀ k ∈ new, k ∉ old → Room rows k := by
  have hroom : ∀ k ∉ old, Room (leaveAll (delta o new old).2 rows).2 k ↔ Room rows k :=
    fun k hold => room_of_find (find_leaveAll_of_notMem fun hk => hold (mem_delta_snd.mp hk).1)
  rw [enterAll_ok_iff (nodup_delta o new old).1]
  constructor
  · exact fun h k hnew hold => (hroom k hold).mp (h k (mem_delta_fst.mpr ⟨hnew, hold⟩))
  · intro h k hk
    obtain ⟨hnew, hold⟩ := mem_delta_fst.mp hk
    exact (hroom k hold).mpr (h k hnew hold)

theorem exists_not_room {new old : List Nat}
    (h : (enterAll (delta o new old).1 (leaveAll (delta o new old).2 rows).2).1 = .error k) :
    ∃ k ∈ new, k ∉ old ∧ ¬ Room rows k := by
  by_contra hroom
  push Not at hroom
  rw [enterAll_delta_ok_iff.mpr hroom] at h
  cases h

/-- Where a move without keys is refused. -/
theorem LeafOccupancy.move_error_cases (hi : LeafOccupancy t) {e : LocError}
    (hnil : p.entered = [] ∧ p.exited = []) (h : (t.move o p).1 = .error e) :
    (p.subjectRef = "" ∧ ∃ d, e = .validation d) ∨
    (t.locationByID p.toLocationID = none ∧ ∃ id, e = .unknownLocation id) ∨
    ∃ l, t.locationByID p.toLocationID = some l ∧
      ((¬ Room t.capacity l.key ∧ ∃ k, e = .capacity .leaf k) ∨
      ((leaveAll (delta o (t.treeAlignedFenceKeys l.key) (t.originFences p.subjectRef)).2
        t.fenceCapacity).1 ≠ .ok () ∧ ∃ k, e = .invariant .fence k) ∨
      ((∃ k ∈ t.treeAlignedFenceKeys l.key, k ∉ t.originFences p.subjectRef ∧
        ¬ Room t.fenceCapacity k) ∧ ∃ k, e = .capacity .fence k)) := by
  rcases (move_spec h).2 with hempty | ⟨hnone, he⟩ | ⟨p', hp, htx⟩
  · exact .inl hempty
  · exact .inr (.inl ⟨hnone, _, he⟩)
  · obtain ⟨⟨-, hto⟩, hderived⟩ := withDelta_spec hp
    obtain ⟨l, hl, hentered, hexited⟩ := hderived hnil
    refine .inr (.inr ⟨l, hl, ?_⟩)
    rcases hi.moveInTx_error htx with ⟨hnone, -⟩ | ⟨l', hl', hcases⟩
    · rw [hto, hl] at hnone
      cases hnone
    rw [hto, hl] at hl'
    cases hl'
    rw [MoveParams.entered, MoveParams.exited, hentered, hexited, elems_slice,
      elems_slice] at hcases
    rcases hcases with ⟨hfull, he⟩ | ⟨k, hk, he⟩ | ⟨k, hk, he⟩
    · exact .inl ⟨hfull, _, he⟩
    · exact .inr (.inl ⟨fun hok => absurd (hk.symm.trans hok) (by simp), k, he⟩)
    · exact .inr (.inr ⟨exists_not_room hk, k, he⟩)

/-- Where a report is refused. -/
theorem FenceRows.report_error_cases [LE F] [DecidableLE F] [Geometry F G] (hr : FenceRows t)
    {e : LocError} (h : (t.report o subject lat lon).1 = .error e) :
    (subject = "" ∧ ∃ d, e = .validation d) ∨
    ∃ new, t.resolveFenceMembership lat lon = .ok new ∧
      (((leaveAll (t.openReport o subject lat lon new).exited t.fenceCapacity).1 ≠ .ok () ∧
        ∃ k, e = .invariant .report k) ∨
      ((∃ k ∈ new, (subject, k) ∉ t.membership ∧ ¬ Room t.fenceCapacity k) ∧
        ∃ k, e = .capacity .fence k)) := by
  unfold report readReport at h
  split_ifs at h with hs
  · exact .inl ⟨hs, _, (Except.error.inj h).symm⟩
  obtain ⟨new, hnew⟩ := hr.exists_resolve lat lon
  simp only [hnew] at h
  split_ifs at h
  rw [fst_atomically] at h
  refine .inr ⟨new, hnew, ?_⟩
  rcases reportInTx_spec h fun k hk => (hr.mem_openReport.1.mp hk).2 with ⟨k, hk, he⟩ | ⟨k, hk, he⟩
  · exact .inl ⟨fun hok => absurd (hk.symm.trans hok) (by simp), k, he⟩
  · obtain ⟨k', hmem, hold, hroom⟩ := exists_not_room hk
    exact .inr ⟨⟨k', hmem, fun hm => hold (hr.mem_currentFenceKeys.mpr hm), hroom⟩, k, he⟩

end Tables

namespace LocSite

variable {F G : Type} [BEq F] [LE F] [DecidableLE F] [Geometry F G]

/-- A site with a room in it and a fence around the room. -/
def smallSite : List (LocCmd Int (Box Int)) :=
  [.defLocation ⟨"site", none, "", true, ⟨0, 0, 0, 0, some ⟨0, 0, 0, 0⟩⟩⟩,
    .defLocation ⟨"room", some "site", "", true, ⟨0, 0, 0, 0, none⟩⟩,
    .defFence "zone" (some "room")]

/-- A subject that walks to a location. -/
def walk (id : String) : LocCmd Int (Box Int) := .move .asCollected ⟨"s", id, none, none⟩

/-- The move of a subject to a location by a transaction. -/
def transact (id : String) : List (LocCmd Int (Box Int)) :=
  let claim := ⟨"x", "loc", "t", "", .pessimistic, 1, 1, "p"⟩
  [.reserve "t" ⟨"s", id⟩ "x" "p" 1 .pessimistic, .execute claim, .postCommit claim,
    .confirmTxn "x"]

end LocSite

end Xolu.Loc
