/-
# Keys of locations

`Def` gives a location the key after the greatest one that is there, and inserts its counter under
the same key.  `Delete` leaves the counter.  So a key is never given twice, since its counter is
still there, but once the location with the greatest key is deleted the next `Def` comes upon that
counter and fails.

`Dense` is the invariant of the runs in which this does not happen: the counters are those of the
keys below the next one.
-/
import Xolu.Loc.Delete
import Mathlib.Data.Fintype.EquivFin

namespace Xolu.Loc

open List Keyed Runs Tally Counter Tables Nat

/-! ### The next key -/

theorem nextKey_le {keys : List Nat} {n : Nat} (hn : 0 < n) (h : ∀ k ∈ keys, k < n) :
    nextKey keys ≤ n := by
  unfold nextKey
  induction keys with
  | nil => exact hn
  | cons k keys ih =>
    rw [forall_mem_cons] at h
    have hrest := ih h.2
    rw [foldr_cons]
    omega

/-- The greatest key, if there is one. -/
theorem nextKey_cases (keys : List Nat) : nextKey keys = 1 ∨ ∃ k ∈ keys, k + 1 = nextKey keys := by
  by_contra! h
  have hle : nextKey keys ≤ nextKey keys - 1 := by
    have hpos : 0 < nextKey keys := succ_pos _
    refine nextKey_le (by omega) fun k hk => ?_
    have hlt := lt_nextKey hk
    have hne := h.2 k hk
    omega
  have hpos : 0 < nextKey keys := succ_pos _
  omega

theorem nextKey_concat (keys : List Nat) : nextKey (keys ++ [nextKey keys]) = nextKey keys + 1 := by
  apply le_antisymm
  · refine nextKey_le (succ_pos _) fun k hk => ?_
    rcases mem_append.mp hk with hk | hk
    · exact (lt_nextKey hk).trans (lt_succ_self _)
    · rw [mem_singleton.mp hk]
      exact lt_succ_self _
  · exact lt_nextKey (mem_append_right _ (mem_singleton_self _))

/-- A definition that passes the checks on it alone. -/
structure LocationDef.WellFormed {F : Type} [BEq F] (d : LocationDef F) : Prop where
  id_ne : d.id ≠ ""
  anchored : rootAnchorOK d = true
  notNull : d.placement.notNull = true

namespace Tables

variable {F G : Type} {t t' : Tables F G}

/-! ### Which definitions succeed -/

/-- The id is not in use, and the parent is absent or there. -/
structure Fresh (t : Tables F G) (d : LocationDef F) : Prop where
  id : t.locationByID d.id = none
  parent : ∀ id ∈ d.parentID, (t.locationByID id).isSome

variable {d : LocationDef F}

/-- A parent that is named but not there. -/
theorem parentKeyOf_eq_none_iff : (d.parentID.isSome ∧ t.parentKeyOf d = none) ↔
      ¬ ∀ id ∈ d.parentID, (t.locationByID id).isSome := by
  unfold parentKeyOf
  rcases d.parentID with - | id <;> simp

theorem defLocation_ok_iff : (∃ key, (t.defLocation d).1 = .ok key) ↔
      (d.id ≠ "" ∧ rootAnchorOK d = true) ∧ t.Fresh d ∧
        find t.capacity t.nextLocationKey = none := by
  unfold defLocation
  split_ifs with hne hroot hid hparent hcap
  · simp [hne]
  · simp [hroot]
  · have hfresh : ¬ t.Fresh d := fun h => parentKeyOf_eq_none_iff.mp hparent h.parent
    simp [hfresh]
  · have hfresh : t.Fresh d := ⟨hid, not_not.mp fun h => hparent (parentKeyOf_eq_none_iff.mpr h)⟩
    simp [hne, hroot, hfresh, hcap]
  · simp [hcap]
  · have hfresh : ¬ t.Fresh d := fun h => hid h.id
    simp [hfresh]

/-- A definition that succeeds inserts the location. -/
theorem defLocation_of_ok {key : Nat} (h : (t.defLocation d).1 = .ok key) :
    ∃ hid hcap, (t.defLocation d).2 = t.insertLocation d hid hcap := by
  obtain ⟨⟨hne, hroot⟩, hfresh, hcap⟩ := defLocation_ok_iff.mp ⟨key, h⟩
  refine ⟨hfresh.id, hcap, ?_⟩
  unfold defLocation
  rw [if_neg hne, if_neg (by simp [hroot]), dif_pos hfresh.id, if_neg, dif_pos hcap]
  exact fun h => parentKeyOf_eq_none_iff.mp h hfresh.parent

/-- A refused definition changes nothing. -/
theorem defLocation_of_not_ok (h : ¬ ∃ key, (t.defLocation d).1 = .ok key) :
    (t.defLocation d).2 = t := by
  unfold defLocation at h ⊢
  split_ifs at h ⊢
  · rfl
  · rfl
  · rfl
  · exact absurd ⟨_, rfl⟩ h
  · rfl
  · rfl

/-- Every definition that is well formed would succeed. -/
def CanCreate [BEq F] (t : Tables F G) : Prop :=
  ∀ d : LocationDef F, d.WellFormed → t.Fresh d → ∃ key, (t.defLocation d).1 = .ok key

/-- A definition succeeds unless a counter is in its way. -/
theorem canCreate_iff [BEq F] {x : F} (hx : (x == x) = true) :
    t.CanCreate ↔ find t.capacity t.nextLocationKey = none := by
  constructor
  · intro h
    obtain ⟨id, hid⟩ := Infinite.exists_notMem_finset ("" :: t.locations.map Location.id).toFinset
    rw [mem_toFinset, mem_cons, not_or] at hid
    -- a root under an id that is free is refused for nothing but its key
    let d : LocationDef F := ⟨id, none, "", false, ⟨x, x, x, x, some ⟨x, x, x, x⟩⟩⟩
    have hfresh : t.Fresh d := by
      refine ⟨find?_eq_none.mpr fun l hl hl' => hid.2 ?_, fun _ hp => nomatch hp⟩
      exact mem_map.mpr ⟨l, hl, of_decide_eq_true hl'⟩
    have hwf : d.WellFormed := ⟨hid.1, rfl, by simp [d, Placement.notNull, hx]⟩
    exact (defLocation_ok_iff.mp (h d hwf hfresh)).2.2
  · intro h d hwf hfresh
    exact defLocation_ok_iff.mpr ⟨⟨hwf.id_ne, hwf.anchored⟩, hfresh, h⟩

/-! ### The counters below the next key -/

/-- The counters are those of the keys that have been given, all below the next one. -/
structure Dense (t : Tables F G) : Prop where
  positive : ∀ l ∈ t.locations, 0 < l.key
  counters : ∀ k, k ∈ t.capacity.map key ↔ 0 < k ∧ k < t.nextLocationKey

theorem dense_empty : Dense (empty : Tables F G) where
  positive _ hl := nomatch hl
  counters k := by
    change k ∈ [] ↔ 0 < k ∧ k < 1
    simp [Nat.pos_iff_ne_zero]

theorem find_capacity_eq_none_iff {k : Nat} :
    find t.capacity k = none ↔ k ∉ t.capacity.map key := by
  rw [← find_isSome_iff, Option.not_isSome_iff_eq_none]

theorem Dense.find_eq_none (h : t.Dense) : find t.capacity t.nextLocationKey = none :=
  find_capacity_eq_none_iff.mpr fun hk => ((h.counters _).mp hk).2.ne rfl

theorem nextLocationKey_of_keys (h : t'.locations.map Location.key = t.locations.map Location.key) :
    t'.nextLocationKey = t.nextLocationKey :=
  congrArg nextKey h

theorem Dense.of_keys (h : t.Dense)
    (hlocations : t'.locations.map Location.key = t.locations.map Location.key)
    (hcapacity : t'.capacity.map key = t.capacity.map key) : t'.Dense where
  positive l hl := by
    obtain ⟨m, hm, hkey⟩ := mem_map.mp (hlocations ▸ mem_map_of_mem hl)
    exact hkey ▸ h.positive m hm
  counters k := by rw [hcapacity, nextLocationKey_of_keys hlocations, h.counters]

theorem nextLocationKey_insertLocation {hid hcap} :
    (t.insertLocation d hid hcap).nextLocationKey = t.nextLocationKey + 1 := by
  unfold nextLocationKey insertLocation
  rw [map_append]
  exact nextKey_concat _

theorem Dense.insertLocation (h : t.Dense) {hid hcap} : (t.insertLocation d hid hcap).Dense where
  positive l hl := by
    rcases mem_append.mp hl with hl | hl
    · exact h.positive l hl
    · rw [mem_singleton.mp hl]
      exact succ_pos _
  counters k := by
    have hpos : 0 < t.nextLocationKey := succ_pos _
    rw [nextLocationKey_insertLocation]
    change k ∈ (t.capacity ++ [_]).map key ↔ _
    rw [map_append, mem_append, h.counters, map_singleton, mem_singleton]
    change _ ∨ k = t.nextLocationKey ↔ _
    omega

/-! ### Deletions -/

/-- The location with the greatest key stays. -/
def SparesGreatest (t : Tables F G) (key : Nat) : Prop :=
  ∀ l ∈ t.locations, t.Below key l.key → l.key + 1 ≠ t.nextLocationKey
deriving Decidable

/-- A deletion does not raise the next key. -/
theorem Deleted.nextLocationKey_le {key : Nat} (h : Deleted t key t') :
    t'.nextLocationKey ≤ t.nextLocationKey := by
  refine nextKey_le (succ_pos _) fun k hk => ?_
  obtain ⟨l, hl, rfl⟩ := mem_map.mp hk
  exact lt_nextLocationKey ((h.mem_locations l).mp hl).1

/-- The next key stays if and only if the location with the greatest key stays. -/
theorem Deleted.nextLocationKey_eq_iff {key : Nat} (h : Deleted t key t') (hi : t.Dense) :
    t'.nextLocationKey = t.nextLocationKey ↔ t.SparesGreatest key := by
  constructor
  · intro heq m hm hbelow hmax
    rcases nextKey_cases (t'.locations.map Location.key) with hone | ⟨k, hk, hnext⟩
    · -- the key before the next one is zero, and no location has that
      have hone : t'.nextLocationKey = 1 := hone
      have hpos := hi.positive m hm
      omega
    · obtain ⟨l, hl, rfl⟩ := mem_map.mp hk
      have hnext : l.key + 1 = t'.nextLocationKey := hnext
      have hkeys : l.key = m.key := by omega
      exact ((h.mem_locations l).mp hl).2 (hkeys ▸ hbelow)
  · intro hspares
    apply le_antisymm h.nextLocationKey_le
    rcases nextKey_cases (t.locations.map Location.key) with hone | ⟨k, hk, hnext⟩
    · exact hone.trans_le (succ_pos _)
    · obtain ⟨m, hm, rfl⟩ := mem_map.mp hk
      have hm' := (h.mem_locations m).mpr ⟨hm, fun hbelow => hspares m hm hbelow hnext⟩
      exact hnext.symm.trans_le (lt_nextLocationKey hm')

theorem Dense.deleted (hi : t.Dense) {key : Nat} (h : Deleted t key t')
    (hspares : t.SparesGreatest key) : t'.Dense where
  positive l hl := hi.positive l ((h.mem_locations l).mp hl).1
  counters k := by rw [h.capacity, (h.nextLocationKey_eq_iff hi).mpr hspares, hi.counters]

/-- **After a deletion** a location can be defined if and only if the greatest key is still in
use. -/
theorem Dense.find_eq_none_deleted_iff (hi : t.Dense) {key : Nat} (h : Deleted t key t') :
    find t'.capacity t'.nextLocationKey = none ↔ t.SparesGreatest key := by
  have hpos : 0 < t'.nextLocationKey := succ_pos _
  have hle := h.nextLocationKey_le
  rw [h.capacity, find_capacity_eq_none_iff, hi.counters, ← h.nextLocationKey_eq_iff hi]
  omega

/-- The keys of the locations and of their counters stay, or a location is added. -/
theorem keys_of_change [LE F] [DecidableLE F] [Geometry F G] {s : LocSite F G} {c : LocCmd F G}
    (h : Change s c t') : (t'.locations.map Location.key = s.tables.locations.map Location.key ∧
      t'.capacity.map key = s.tables.capacity.map key) ∨
      ∃ d hid hcap, t' = s.tables.insertLocation d hid hcap := by
  cases h with
  | upkeep h => exact .inl ⟨h.locationKeys, h.capacityKeys⟩
  | location hid hcap => exact .inr ⟨_, hid, hcap, rfl⟩
  | fence hne hid hcap => exact .inl ⟨rfl, rfl⟩
  | moved _ _ h | executed _ h => exact .inl ⟨congrArg _ h.locations, h.capacity_keys⟩
  | reported _ _ h => exact .inl ⟨congrArg _ h.locations, congrArg _ h.capacity⟩

end Tables

namespace LocSite

variable {F G : Type} [BEq F]

/-- The key and the id of the location that a step creates. -/
def created (s : LocSite F G) : LocOp F G → Option (Nat × String)
  | .cmd (.defLocation d) =>
    if d.placement.notNull then
      match (s.tables.defLocation d).1 with
      | .ok _ => some (s.tables.nextLocationKey, d.id)
      | .error _ => none
    else none
  | _ => none

variable {s : LocSite F G}

theorem created_isSome_iff {d : LocationDef F} : (s.created (.cmd (.defLocation d))).isSome ↔
      d.placement.notNull = true ∧ ∃ key, (s.tables.defLocation d).1 = .ok key := by
  change (if d.placement.notNull then _ else none).isSome ↔ _
  split_ifs with hnull
  · rcases (s.tables.defLocation d).1 with e | key <;> simp [hnull]
  · simp [hnull]

variable [LE F] [DecidableLE F] [Geometry F G]

/-- The keys and the ids of the locations that a run creates. -/
def creations (s : LocSite F G) : List (LocOp F G) → List (Nat × String)
  | [] => []
  | c :: ops => (s.created c).toList ++ (s.stepOp c).creations ops

/-- A definition with a fresh id and a parent that is absent or there succeeds, and after the step
well-formed definitions can succeed. -/
def Creates (s : LocSite F G) (c : LocOp F G) : Prop :=
  (∀ d, c = .cmd (.defLocation d) → s.tables.Fresh d → (s.created c).isSome) ∧
    (s.stepOp c).tables.CanCreate

/-- A definition with a fresh id and a parent that is absent or there is well formed, and an
admitted deletion does not delete the location with the greatest key. -/
def KeepsGreatest (s : LocSite F G) : LocOp F G → Prop
  | .cmd (.defLocation d) => s.tables.Fresh d → d.WellFormed
  | .delete id force => ∀ l, s.tables.Deletable id force l → s.tables.SparesGreatest l.key
  | _ => True

/-! ### No key is given twice -/

variable {c : LocOp F G}

theorem mem_capacity_of_changeOp {t' : Tables F G} (h : ChangeOp s c t') {k : Nat}
    (hk : k ∈ s.tables.capacity.map key) : k ∈ t'.capacity.map key := by
  cases h with
  | refused => exact hk
  | cmd hnull h =>
    rcases keys_of_change h with ⟨-, hkeys⟩ | ⟨d, hid, hcap, rfl⟩
    · rwa [hkeys]
    · change k ∈ (s.tables.capacity ++ _).map key
      rw [map_append]
      exact mem_append_left _ hk
  | deleted _ h | fenceDeleted _ h => rwa [h.capacity]

/-- A key that is given had no counter before, and has one then. -/
theorem created_key {k : Nat} {id : String} (h : s.created c = some (k, id)) :
    k ∉ s.tables.capacity.map Counter.key ∧ k ∈ (s.stepOp c).tables.capacity.map Counter.key := by
  unfold created at h
  split at h
  · next d =>
    split_ifs at h with hnull
    split at h
    · next key hok =>
      obtain ⟨rfl, rfl⟩ := Prod.mk.inj (Option.some.inj h)
      obtain ⟨-, -, hcap⟩ := defLocation_ok_iff.mp ⟨key, hok⟩
      refine ⟨find_capacity_eq_none_iff.mp hcap, ?_⟩
      obtain ⟨hid, hfind, htables⟩ := defLocation_of_ok hok
      rw [stepOp_cmd (c := .defLocation d) hnull]
      change _ ∈ (s.tables.defLocation d).2.capacity.map Counter.key
      rw [htables]
      exact mem_map_of_mem (mem_append_right _ (mem_singleton_self _))
    · cases h
  · cases h

/-- **Keys are given once**, from any state. -/
theorem nodup_creations (s : LocSite F G) (ops : List (LocOp F G)) :
    ((s.creations ops).map Prod.fst).Nodup ∧
      ∀ k ∈ (s.creations ops).map Prod.fst, k ∉ s.tables.capacity.map key := by
  induction ops generalizing s with
  | nil => exact ⟨nodup_nil, fun _ hk => absurd hk not_mem_nil⟩
  | cons c ops ih =>
    obtain ⟨hnd, hnew⟩ := ih (s.stepOp c)
    have hlater : ∀ k ∈ ((s.stepOp c).creations ops).map Prod.fst,
        k ∉ s.tables.capacity.map key := fun k hk hold =>
      hnew k hk (mem_capacity_of_changeOp (s.changeOp_stepOp c) hold)
    unfold creations
    rcases hc : s.created c with - | ⟨key, id⟩
    · exact ⟨hnd, hlater⟩
    · obtain ⟨hkey, hgiven⟩ := created_key hc
      rw [Option.toList_some, singleton_append, map_cons, nodup_cons]
      refine ⟨⟨fun hk => hnew key hk hgiven, hnd⟩, fun k hk => ?_⟩
      rcases mem_cons.mp hk with rfl | hk
      · exact hkey
      · exact hlater k hk

/-! ### When creation goes on -/

theorem dense_stepOp (hi : s.tables.Dense)
    (hc : s.KeepsGreatest c) : (s.stepOp c).tables.Dense := by
  have hchange := s.changeOp_stepOp c
  generalize (s.stepOp c).tables = t' at hchange
  cases hchange with
  | refused => exact hi
  | cmd hnull h =>
    rcases keys_of_change h with ⟨hlocations, hcap⟩ | ⟨d, hid, hcap, rfl⟩
    · exact hi.of_keys hlocations hcap
    · exact hi.insertLocation
  | deleted hl h => exact hi.deleted h (hc _ hl)
  | fenceDeleted _ h => exact hi.of_keys (congrArg _ h.locations) (congrArg _ h.capacity)

theorem creates_iff (hi : s.tables.Dense) {x : F} (hx : (x == x) = true)
    (c : LocOp F G) : s.Creates c ↔ s.KeepsGreatest c := by
  constructor
  · rintro ⟨hdef, hafter⟩
    rw [canCreate_iff hx] at hafter
    cases c with
    | cmd c =>
      cases c with
      | defLocation d =>
        intro hfresh
        obtain ⟨hnull, hok⟩ := created_isSome_iff.mp (hdef d rfl hfresh)
        obtain ⟨⟨hne, hroot⟩, -⟩ := defLocation_ok_iff.mp hok
        exact ⟨hne, hroot, hnull⟩
      | _ => trivial
    | delete id force =>
      intro l hl
      exact (hi.find_eq_none_deleted_iff (deleted_of_deletable hl).2).mp hafter
    | deleteFence id => trivial
  · intro hc
    refine ⟨?_, (canCreate_iff hx).mpr (dense_stepOp hi hc).find_eq_none⟩
    rintro d rfl hfresh
    have hwf : d.WellFormed := hc hfresh
    refine created_isSome_iff.mpr ⟨hwf.notNull, defLocation_ok_iff.mpr ?_⟩
    exact ⟨⟨hwf.id_ne, hwf.anchored⟩, hfresh, hi.find_eq_none⟩

/-- **Keys of locations.**  In a run of any commands and deletions no key is given to two locations,
and creation goes on after every step if and only if the definitions are well formed and no deletion
deletes the location with the greatest key. -/
theorem creation_goes_on_iff {x : F} (hx : (x == x) = true) (tenant : String) (now : Int)
    (ops : List (LocOp F G)) :
    (((init tenant now : LocSite F G).creations ops).map Prod.fst).Nodup ∧
      (Along stepOp Creates (init tenant now) ops ↔
        Along stepOp KeepsGreatest (init tenant now) ops) := by
  refine ⟨(nodup_creations _ ops).1, ?_⟩
  refine along_iff_of_invariant (I := fun s : LocSite F G => s.tables.Dense)
    (fun s c hi _ hc => dense_stepOp hi hc) (fun s c hi _ => creates_iff hi hx c) ?_ .trivial
  exact dense_empty

/-- A root at the origin. -/
def rootDef (id : String) : LocationDef Int := ⟨id, none, "", true, ⟨0, 0, 0, 0, some ⟨0, 0, 0, 0⟩⟩⟩

/-- A location is defined, deleted, and another one is to be defined. -/
def defineAfterDelete : List (LocOp Int (Box Int)) :=
  [.cmd (.defLocation (rootDef "a")), .delete "a" false]

/-- The counter of the deleted location is in the way, of this definition and of any other. -/
theorem creation_wedged : let s : LocSite Int (Box Int) := run stepOp (init "t" 0) defineAfterDelete
    let d := rootDef "b"
    s.tables.locations = [] ∧ s.tables.Fresh d ∧ d.WellFormed ∧
      (s.tables.defLocation d).1 = .error (.constraint "loc_capacity") ∧
      ¬ Along stepOp Creates (init "t" 0) (defineAfterDelete ++ [.cmd (.defLocation d)]) := by
  intro s d
  have hfresh : s.tables.Fresh d := ⟨by decide +kernel, fun _ h => nomatch h⟩
  have hwf : d.WellFormed := ⟨by decide, by decide, by decide⟩
  have hrefused : (s.tables.defLocation d).1 = .error (.constraint "loc_capacity") := by
    decide +kernel
  refine ⟨by decide +kernel, hfresh, hwf, hrefused, fun h => ?_⟩
  obtain ⟨key, hok⟩ := (created_isSome_iff.mp ((along_append.mp h).2.1.1 d rfl hfresh)).2
  cases hrefused.symm.trans hok

/-- The earlier of two locations can be deleted. -/
theorem creation_goes_on_after_first : Along stepOp Creates (init "t" 0 : LocSite Int (Box Int))
    [.cmd (.defLocation (rootDef "a")), .cmd (.defLocation (rootDef "b")), .delete "a" false] := by
  refine (creation_goes_on_iff (x := 0) rfl "t" 0 _).2.mpr ⟨?_, ?_, ?_, trivial⟩
  · exact fun _ => ⟨by decide, rfl, rfl⟩
  · exact fun _ => ⟨by decide, rfl, rfl⟩
  · intro l hl
    have hkey : l.key = 1 := Option.some.inj ((congrArg (Option.map _) hl.found).symm.trans rfl)
    rw [hkey]
    decide +kernel

end LocSite

end Xolu.Loc
