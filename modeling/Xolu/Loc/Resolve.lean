/-
# The R-tree before the shapes

`ResolveFenceMembership` takes the fences of which a box in the R-tree overlaps the coordinate, and
asks the shape of each.  A fence keeps its row in the R-tree when it is deleted, and the coordinate
cannot be resolved then if that row overlaps it, for the fence is not there to be asked.

`Indexed` says how the R-tree and the fences belong together in every run; in such tables a
coordinate is resolved to the fences that contain it (`Resolves`) if and only if no row of a
deleted fence overlaps it and no box misses it (`Exact`).
-/
import Xolu.Loc.Inside
import Xolu.Loc.Shapes

namespace Xolu.Loc

open List Keyed Runs Tally Xolu.Loc.Geometry Tables Counter

namespace Tables

variable {F G : Type} [LE F] [DecidableLE F] [Geometry F G] {t t' : Tables F G} {lat lon : F}

variable (t)

/-- The keys of the fences that contain the coordinate. -/
def containing (lat lon : F) : List Nat :=
  (t.fences.filter fun f => f.geometry.any (contains · lat lon)).map Fence.key

/-- The coordinate is resolved to the fences that contain it, each once. -/
def Resolves (lat lon : F) : Prop :=
  ∃ keys, t.resolveFenceMembership lat lon = .ok keys ∧
    keys.Perm ((t.containing lat lon).map uint32)

/-- The fences that the R-tree names. -/
def candidates (lat lon : F) : List Nat := (t.rtree.filter (·.2.overlaps lat lon)).map Prod.fst

/-- The shape of a fence contains the coordinate. -/
def shapeContains (lat lon : F) (key : Nat) : Bool :=
  (t.loadFenceGeometry key).any fun geom => geom.any (contains · lat lon)

/-! ### The loop over the candidates -/

variable {t}

section

omit [LE F] [DecidableLE F]

omit [Geometry F G] in
theorem loadFenceGeometry_of_mem {f : Fence G} (h : f ∈ t.fences) :
    t.loadFenceGeometry f.key = some f.geometry := by
  rw [loadFenceGeometry, t.fenceKeys.find?_of_mem h, Option.map_some]

theorem mem_containing_iff {k : Nat} :
    k ∈ t.containing lat lon ↔ k ∈ t.fences.map Fence.key ∧ t.shapeContains lat lon k = true := by
  unfold containing
  simp only [mem_map, mem_filter]
  constructor
  · rintro ⟨f, ⟨hf, hcontains⟩, rfl⟩
    exact ⟨⟨f, hf, rfl⟩, by rwa [shapeContains, loadFenceGeometry_of_mem hf, Option.any_some]⟩
  · rintro ⟨⟨f, hf, rfl⟩, hcontains⟩
    rw [shapeContains, loadFenceGeometry_of_mem hf, Option.any_some] at hcontains
    exact ⟨f, ⟨hf, hcontains⟩, rfl⟩

theorem nodup_containing : (t.containing lat lon).Nodup :=
  t.fenceKeys.sublist (filter_sublist.map _)

end

omit [Geometry F G] in
theorem nodup_candidates : (t.candidates lat lon).Nodup :=
  t.rtreeKeys.sublist (filter_sublist.map _)

/-! ### What the R-tree has to do with the fences -/

/-- The R-tree has the boxes of the shapes, and rows of deleted fences, whose keys are not given
again. -/
structure Indexed (t : Tables F G) : Prop where
  boxed : ∀ f ∈ t.fences, ∀ g ∈ f.geometry, (f.key, boundingBox g) ∈ t.rtree
  shaped : ∀ f ∈ t.fences, ∀ e ∈ t.rtree, e.1 = f.key → ∃ g ∈ f.geometry, e.2 = boundingBox g
  counted : ∀ f ∈ t.fences, f.key ∈ t.fenceCapacity.map key
  given : ∀ e ∈ t.rtree, e.1 ∈ t.fenceCapacity.map key

omit [LE F] [DecidableLE F] in
theorem indexed_empty : (empty : Tables F G).Indexed := by
  constructor <;> exact fun _ h => absurd h not_mem_nil

/-- No row of a deleted fence overlaps the coordinate, and no box misses it. -/
structure Exact (t : Tables F G) (lat lon : F) : Prop where
  there : ∀ e ∈ t.rtree, e.2.overlaps lat lon = true → e.1 ∈ t.fences.map Fence.key
  covered : ∀ f ∈ t.fences, ∀ g ∈ f.geometry, contains g lat lon = true →
    (boundingBox g).overlaps lat lon = true

omit [Geometry F G] in
theorem there_iff : (∀ e ∈ t.rtree, e.2.overlaps lat lon = true → e.1 ∈ t.fences.map Fence.key) ↔
    ∀ k ∈ t.candidates lat lon, k ∈ t.fences.map Fence.key := by
  simp only [candidates, forall_mem_map, mem_filter, and_imp]

/-- The fences that contain the coordinate are candidates if and only if their boxes cover it. -/
theorem Indexed.covered_iff (hi : t.Indexed) :
    (∀ f ∈ t.fences, ∀ g ∈ f.geometry, contains g lat lon = true →
      (boundingBox g).overlaps lat lon = true) ↔
      ∀ k ∈ t.containing lat lon, k ∈ t.candidates lat lon := by
  rw [containing, forall_mem_map]
  simp only [candidates, mem_filter, and_imp, mem_map]
  refine forall₂_congr fun f hf => ?_
  constructor
  · intro h hany
    obtain ⟨g, hg, hcontains⟩ := Option.any_eq_true .. |>.mp hany
    exact ⟨_, ⟨hi.boxed f hf g hg, h g hg hcontains⟩, rfl⟩
  · intro h g hg hcontains
    obtain ⟨e, ⟨he, hoverlaps⟩, hkey⟩ := h (by rw [Option.mem_def.mp hg]; exact hcontains)
    obtain ⟨g', hg', hbox⟩ := hi.shaped f hf e he hkey
    cases Option.some.inj (hg.symm.trans hg')
    rwa [← hbox]

/-- **Resolution.**  A coordinate is resolved to the fences that contain it if and only if no row of
a deleted fence overlaps it and no box misses it. -/
theorem Indexed.resolves_iff (hi : t.Indexed) : t.Resolves lat lon ↔ t.Exact lat lon := by
  constructor
  · rintro ⟨keys, hok, hperm⟩
    have hthere : ∀ k ∈ t.candidates lat lon, k ∈ t.fences.map Fence.key := there_of_resolveLoop hok
    refine ⟨there_iff.mpr hthere, hi.covered_iff.mpr fun k hk => ?_⟩
    cases hok.symm.trans (resolveLoop_of_there hthere)
    -- the candidates that pass are among the fences that contain it, and as many
    have hsub : (t.candidates lat lon).filter (t.shapeContains lat lon) ⊆ t.containing lat lon := by
      intro k hk
      obtain ⟨hk, hinside⟩ := mem_filter.mp hk
      exact mem_containing_iff.mpr ⟨hthere k hk, hinside⟩
    have hlength := hperm.length_eq
    rw [length_map, length_map] at hlength
    have hsame := ((nodup_candidates.filter _).subperm hsub).perm_of_length_le hlength.ge
    exact (mem_filter.mp (hsame.mem_iff.mpr hk)).1
  · rintro ⟨hthere, hcovered⟩
    rw [there_iff] at hthere
    rw [hi.covered_iff] at hcovered
    refine ⟨_, resolveLoop_of_there hthere, List.Perm.map _ ?_⟩
    refine (perm_ext_iff_of_nodup (nodup_candidates.filter _) nodup_containing).mpr fun k => ?_
    rw [mem_filter, mem_containing_iff]
    refine and_congr_left fun hinside => ⟨fun hk => hthere k hk, fun hk => ?_⟩
    exact hcovered k (mem_containing_iff.mpr ⟨hk, hinside⟩)

/-! ### What a step leaves of it -/

section

omit [LE F] [DecidableLE F] [Geometry F G]

variable {f : Fence G}

theorem reshape_of_eq {key : Nat} {g : G} (h : f.key = key) :
    reshape key g f = { f with geometry := some g } := if_pos h

theorem reshape_of_ne {key : Nat} {g : G} (h : f.key ≠ key) : reshape key g f = f := if_neg h

theorem mem_of_fenceByID {id : String} (h : t.fenceByID id = some f) : f ∈ t.fences ∧ f.id = id :=
  ⟨mem_of_find?_eq_some h, by simpa using find?_some h⟩

/-- `DefFence` inserts the fence or does nothing. -/
theorem defFence_cases (id : String) (aligned : Option String) : (t.defFence id aligned).2 = t ∨
      ∃ hid hcap, (t.defFence id aligned).2 = t.insertFence id aligned hid hcap := by
  unfold defFence
  split_ifs with hne hid _ hcap
  · exact .inl rfl
  · exact .inl rfl
  · exact .inr ⟨hid, hcap, rfl⟩
  · exact .inl rfl
  · exact .inl rfl
  · exact .inl rfl

end

theorem counted_of_change {s : LocSite F G} {c : LocCmd F G} (h : Change s c t') {k : Nat}
    (hk : k ∈ s.tables.fenceCapacity.map key) : k ∈ t'.fenceCapacity.map key := by
  cases h with
  | upkeep h => rwa [h.fenceCapacityKeys]
  | location hid hcap => exact hk
  | fence hne hid hcap =>
    change k ∈ (s.tables.fenceCapacity ++ _).map key
    rw [map_append]
    exact mem_append_left _ hk
  | moved _ _ h | executed _ h => rwa [h.fenceCapacity, keys_enterAll, keys_leaveAll]
  | reported _ _ h => rwa [h.fenceKeys]

section

variable {id : String}

omit [LE F] [DecidableLE F]

/-- `SetFenceGeometry` stores the shape if the fence is there and the shape is admitted. -/
theorem setFenceGeometry_of_none {f : Fence G} {g : G} (hf : t.fenceByID id = some f)
    (hg : fault g = none) : (t.setFenceGeometry id g).2 = t.storeGeometry f.key g := by
  simp only [setFenceGeometry, hf, hg]

theorem setFenceGeometry_refused {g : G}
    (h : (t.fenceByID id).isSome → fault g ≠ none) : (t.setFenceGeometry id g).2 = t := by
  unfold setFenceGeometry
  rcases hf : t.fenceByID id with - | f
  · rfl
  · rcases hg : fault g with - | fault
    · exact absurd hg (h (by rw [hf, Option.isSome_some]))
    · rfl

theorem Indexed.of_same (hi : t.Indexed) (hfences : t'.fences = t.fences)
    (hrtree : t'.rtree = t.rtree)
    (hkeys : ∀ k ∈ t.fenceCapacity.map key, k ∈ t'.fenceCapacity.map key) :
    t'.Indexed where
  boxed := by rw [hfences, hrtree]; exact hi.boxed
  shaped := by rw [hfences, hrtree]; exact hi.shaped
  counted := by rw [hfences]; exact fun f hf => hkeys _ (hi.counted f hf)
  given := by rw [hrtree]; exact fun e he => hkeys _ (hi.given e he)

/-- The key of a new fence is not in the R-tree, where a deleted fence may have left its own. -/
theorem Indexed.insertFence (hi : t.Indexed) {aligned : Option String}
    {hid : t.fenceByID id = none} {hcap : find t.fenceCapacity t.nextFenceKey = none} :
    (t.insertFence id aligned hid hcap).Indexed where
  boxed f hf g hg := by
    rcases mem_append.mp hf with hf | hf
    · exact hi.boxed f hf g hg
    · rw [mem_singleton.mp hf] at hg
      cases hg
  shaped f hf e he hkey := by
    rcases mem_append.mp hf with hf | hf
    · exact hi.shaped f hf e he hkey
    · -- a box under the new key would have a counter, and there is none
      rw [mem_singleton.mp hf] at hkey
      have hsome := find_isSome_iff.mpr (hkey ▸ hi.given e he)
      rw [hcap] at hsome
      cases hsome
  counted f hf := by
    change f.key ∈ (t.fenceCapacity ++ _).map key
    rw [map_append, mem_append]
    rcases mem_append.mp hf with hf | hf
    · exact .inl (hi.counted f hf)
    · rw [mem_singleton.mp hf]
      exact .inr (mem_singleton_self _)
  given e he := by
    change e.1 ∈ (t.fenceCapacity ++ _).map key
    rw [map_append]
    exact mem_append_left _ (hi.given e he)

theorem Indexed.storeGeometry (hi : t.Indexed) {f : Fence G} (hf : f ∈ t.fences) (g : G) :
    (t.storeGeometry f.key g).Indexed where
  boxed m hm g' hg' := by
    obtain ⟨m, hmem, rfl⟩ := mem_map.mp hm
    by_cases hkey : m.key = f.key
    · rw [reshape_of_eq hkey] at hg' ⊢
      cases hg'
      exact mem_append_right _ (mem_singleton.mpr (congrArg (·, _) hkey))
    · rw [reshape_of_ne hkey] at hg' ⊢
      refine mem_append_left _ (mem_filter.mpr ⟨hi.boxed m hmem g' hg', ?_⟩)
      simpa using hkey
  shaped m hm e he hkey := by
    obtain ⟨m, hmem, rfl⟩ := mem_map.mp hm
    rw [(reshape_keeps f.key g m).1] at hkey
    rcases mem_append.mp he with he | he
    · obtain ⟨he, hne⟩ := mem_filter.mp he
      rw [reshape_of_ne (hkey ▸ by simpa using hne)]
      exact hi.shaped m hmem e he hkey
    · cases mem_singleton.mp he
      rw [reshape_of_eq hkey.symm]
      exact ⟨g, rfl, rfl⟩
  counted m hm := by
    obtain ⟨m, hmem, rfl⟩ := mem_map.mp hm
    rw [(reshape_keeps f.key g m).1]
    exact hi.counted m hmem
  given e he := by
    rcases mem_append.mp he with he | he
    · exact hi.given e (mem_filter.mp he).1
    · rw [mem_singleton.mp he]
      exact hi.counted f hf

theorem Indexed.fenceDeleted (hi : t.Indexed) (h : FenceDeleted t id t') : t'.Indexed := by
  have hsub : ∀ f ∈ t'.fences, f ∈ t.fences := fun f hf =>
    (mem_filter.mp (h.fences ▸ hf)).1
  constructor
  · rw [h.rtree]
    exact fun f hf => hi.boxed f (hsub f hf)
  · rw [h.rtree]
    exact fun f hf => hi.shaped f (hsub f hf)
  · rw [h.fenceCapacity]
    exact fun f hf => hi.counted f (hsub f hf)
  · rw [h.rtree, h.fenceCapacity]
    exact hi.given

end

theorem Exact.of_same (hx : t.Exact lat lon) (hfences : t'.fences = t.fences)
    (hrtree : t'.rtree = t.rtree) : t'.Exact lat lon where
  there := by rw [hfences, hrtree]; exact hx.there
  covered := by rw [hfences]; exact hx.covered

theorem Exact.insertFence (hx : t.Exact lat lon) {id : String} {aligned : Option String}
    {hid hcap} : (t.insertFence id aligned hid hcap).Exact lat lon where
  there e he hoverlaps := by
    change e.1 ∈ (t.fences ++ _).map Fence.key
    rw [map_append]
    exact mem_append_left _ (hx.there e he hoverlaps)
  covered f hf g hg := by
    rcases mem_append.mp hf with hf | hf
    · exact hx.covered f hf g hg
    · rw [mem_singleton.mp hf] at hg
      cases hg

theorem Exact.storeGeometry_iff (hx : t.Exact lat lon) {f : Fence G} (hf : f ∈ t.fences) (g : G) :
    (t.storeGeometry f.key g).Exact lat lon ↔ (contains g lat lon = true →
      (boundingBox g).overlaps lat lon = true) := by
  have hkeys : (t.storeGeometry f.key g).fences.map Fence.key = t.fences.map Fence.key := by
    change (t.fences.map _).map _ = _
    rw [map_map]
    exact map_congr_left fun m _ => (reshape_keeps f.key g m).1
  constructor
  · intro h
    have hmem : reshape f.key g f ∈ (t.storeGeometry f.key g).fences := mem_map_of_mem hf
    rw [reshape_of_eq rfl] at hmem
    exact h.covered _ hmem g rfl
  · intro hg
    refine ⟨fun e he hoverlaps => ?_, fun m hm g' hg' => ?_⟩
    · rw [hkeys]
      rcases mem_append.mp he with he | he
      · exact hx.there e (mem_filter.mp he).1 hoverlaps
      · rw [mem_singleton.mp he]
        exact mem_map_of_mem hf
    · obtain ⟨m, hmem, rfl⟩ := mem_map.mp hm
      by_cases hkey : m.key = f.key
      · rw [reshape_of_eq hkey] at hg'
        cases hg'
        exact hg
      · rw [reshape_of_ne hkey] at hg'
        exact hx.covered m hmem g' hg'

/-- After the deletion of a fence, what is left of it must not overlap the coordinate. -/
theorem Exact.fenceDeleted_iff (hi : t.Indexed) (hx : t.Exact lat lon) {id : String} {f : Fence G}
    (hf : t.fenceByID id = some f) (h : FenceDeleted t id t') :
    t'.Exact lat lon ↔ ∀ g ∈ f.geometry, (boundingBox g).overlaps lat lon = false := by
  obtain ⟨hmem, rfl⟩ := mem_of_fenceByID hf
  have hfences : ∀ m, m ∈ t'.fences ↔ m ∈ t.fences ∧ m.id ≠ f.id := fun m => by
    rw [h.fences, mem_filter, decide_eq_true_eq]
  constructor
  · intro h' g hg
    rw [← Bool.not_eq_true]
    intro hoverlaps
    obtain ⟨m, hm, hkey⟩ := mem_map.mp (h'.there _ (h.rtree ▸ hi.boxed f hmem g hg) hoverlaps)
    obtain ⟨hm, hne⟩ := (hfences m).mp hm
    exact hne (congrArg Fence.id (t.fenceKeys.eq_of_key hm hmem hkey))
  · intro hg
    refine ⟨fun e he hoverlaps => ?_, fun m hm => hx.covered m ((hfences m).mp hm).1⟩
    rw [h.rtree] at he
    obtain ⟨m, hm, hkey⟩ := mem_map.mp (hx.there e he hoverlaps)
    refine mem_map.mpr ⟨m, (hfences m).mpr ⟨hm, fun hid => ?_⟩, hkey⟩
    cases t.fenceIDs.eq_of_key hm hmem hid
    obtain ⟨g, hgeom, hbox⟩ := hi.shaped f hmem e he hkey.symm
    rw [hbox, hg g hgeom] at hoverlaps
    cases hoverlaps

end Tables

namespace LocSite

variable {F G : Type} [BEq F] [LE F] [DecidableLE F] [Geometry F G] {s : LocSite F G} {lat lon : F}

theorem indexed_step (hi : s.tables.Indexed) (c : LocCmd F G) : (s.step c).tables.Indexed := by
  have hchange := (s.change_step c).1
  have hsame : (∀ id aligned, c ≠ .defFence id aligned) → (∀ id g, c ≠ .setFenceGeometry id g) →
      (s.step c).tables.Indexed := fun hdef hshape => by
    obtain ⟨hfences, hrtree⟩ := s.fences_step hdef hshape
    exact hi.of_same hfences hrtree fun k hk => counted_of_change hchange hk
  cases c with
  | defFence id aligned =>
    change (s.tables.defFence id aligned).2.Indexed
    rcases defFence_cases id aligned with heq | ⟨hid, hcap, heq⟩
    · rwa [heq]
    · rw [heq]
      exact hi.insertFence
  | setFenceGeometry id g =>
    change (s.tables.setFenceGeometry id g).2.Indexed
    by_cases h : (s.tables.fenceByID id).isSome → fault g ≠ none
    · rwa [setFenceGeometry_refused h]
    · push Not at h
      obtain ⟨f, hf⟩ := Option.isSome_iff_exists.mp h.1
      rw [setFenceGeometry_of_none hf h.2]
      exact hi.storeGeometry (mem_of_fenceByID hf).1 g
  | _ => exact hsame (by simp) (by simp)

theorem indexed_stepOp (hi : s.tables.Indexed) (c : LocOp F G) : (s.stepOp c).tables.Indexed := by
  have hchange := s.changeOp_stepOp c
  cases c with
  | cmd c =>
    rcases hnull : c.notNull with - | -
    · rwa [stepOp_cmd_of_null hnull]
    · rw [stepOp_cmd hnull]
      exact indexed_step hi c
  | delete id force =>
    generalize (s.stepOp (.delete id force)).tables = t' at hchange
    cases hchange with
    | refused => exact hi
    | deleted _ h => exact hi.of_same h.fences h.rtree fun k hk => h.fenceCapacity ▸ hk
  | deleteFence id =>
    generalize (s.stepOp (.deleteFence id)).tables = t' at hchange
    cases hchange with
    | refused => exact hi
    | fenceDeleted _ h => exact hi.fenceDeleted h

/-- A shape that is stored covers the coordinate if it contains it, and a fence that is deleted has
no box that overlaps it. -/
def Covering (s : LocSite F G) (lat lon : F) : LocOp F G → Prop
  | .cmd (.setFenceGeometry id g) => (s.tables.fenceByID id).isSome → fault g = none →
      contains g lat lon = true → (boundingBox g).overlaps lat lon = true
  | .deleteFence id => ∀ f ∈ s.tables.fenceByID id, ∀ g ∈ f.geometry,
      (boundingBox g).overlaps lat lon = false
  | _ => True

/-- The R-tree is exact at a coordinate after a step if and only if the step covers it. -/
theorem exact_stepOp_iff (hi : s.tables.Indexed) (hx : s.tables.Exact lat lon) (c : LocOp F G) :
    (s.stepOp c).tables.Exact lat lon ↔ s.Covering lat lon c := by
  cases c with
  | cmd c =>
    rcases hnull : c.notNull with - | -
    · rw [stepOp_cmd_of_null hnull]
      cases c with
      | setFenceGeometry id g => cases hnull
      | _ => exact iff_of_true hx trivial
    rw [stepOp_cmd hnull]
    have hsame : (∀ id aligned, c ≠ .defFence id aligned) → (∀ id g, c ≠ .setFenceGeometry id g) →
        (s.step c).tables.Exact lat lon := fun hdef hshape => by
      obtain ⟨hfences, hrtree⟩ := s.fences_step hdef hshape
      exact hx.of_same hfences hrtree
    cases c with
    | defFence id aligned =>
      refine iff_of_true ?_ trivial
      change (s.tables.defFence id aligned).2.Exact lat lon
      rcases defFence_cases id aligned with heq | ⟨hid, hcap, heq⟩
      · rwa [heq]
      · rw [heq]
        exact hx.insertFence
    | setFenceGeometry id g =>
      change (s.tables.setFenceGeometry id g).2.Exact lat lon ↔ _
      by_cases h : (s.tables.fenceByID id).isSome → fault g ≠ none
      · rw [setFenceGeometry_refused h]
        exact iff_of_true hx fun hf hg => absurd hg (h hf)
      · push Not at h
        obtain ⟨f, hf⟩ := Option.isSome_iff_exists.mp h.1
        rw [setFenceGeometry_of_none hf h.2, hx.storeGeometry_iff (mem_of_fenceByID hf).1 g]
        exact ⟨fun hg _ _ => hg, fun hg => hg h.1 h.2⟩
    | _ => exact iff_of_true (hsame (by simp) (by simp)) trivial
  | delete id force =>
    have hchange := s.changeOp_stepOp (.delete id force)
    generalize (s.stepOp (.delete id force)).tables = t' at hchange
    refine iff_of_true ?_ trivial
    cases hchange with
    | refused => exact hx
    | deleted _ h => exact hx.of_same h.fences h.rtree
  | deleteFence id =>
    change (s.tables.deleteFence id).2.Exact lat lon ↔ _
    rcases hf : s.tables.fenceByID id with - | f
    · rw [deleteFence_of_none hf]
      refine iff_of_true hx fun f hf' => ?_
      rw [hf] at hf'
      cases hf'
    · rw [hx.fenceDeleted_iff hi hf (fenceDeleted_deleteFence hf).2]
      constructor
      · intro h f' hf'
        cases hf.symm.trans hf'
        exact h
      · exact fun h => h f hf

/-! ### Circles and polygons in exact arithmetic -/

/-- The coordinate is resolved to the fences that contain it after the step. -/
def ResolvesAt (lat lon : ℝ) (s : LocSite ℝ (Shape ℝ)) (c : LocOp ℝ (Shape ℝ)) : Prop :=
  (s.stepOp c).tables.Resolves lat lon

/-- A circle that is stored and contains the coordinate has it in its box, and a fence that is
deleted has a box without it. -/
def CoversAt (lat lon : ℝ) (s : LocSite ℝ (Shape ℝ)) : LocOp ℝ (Shape ℝ) → Prop
  | .cmd (.setFenceGeometry id g) => (s.tables.fenceByID id).isSome → fault g = none →
      g.Covers lat lon
  | .deleteFence id => ∀ f ∈ s.tables.fenceByID id, ∀ g ∈ f.geometry,
      (boundingBox g).overlaps lat lon = false
  | _ => True

theorem covering_iff {s : LocSite ℝ (Shape ℝ)} {lat lon : ℝ} (c : LocOp ℝ (Shape ℝ)) :
    s.Covering lat lon c ↔ s.CoversAt lat lon c := by
  cases c with
  | cmd c =>
    cases c with
    | setFenceGeometry id g =>
      exact imp_congr_right fun _ => imp_congr_right fun _ => Shape.covers_iff
    | _ => exact Iff.rfl
  | delete | deleteFence => exact Iff.rfl

/-- **The R-tree loses no member.**  In a run of any commands and deletions a coordinate is resolved
to the fences that contain it after every step if and only if no circle that is stored contains it
outside its box and no fence is deleted whose box has it. -/
theorem resolves_iff_covers (lat lon : ℝ) (tenant : String) (now : Int)
    (ops : List (LocOp ℝ (Shape ℝ))) : Along stepOp (ResolvesAt lat lon) (init tenant now) ops ↔
      Along stepOp (CoversAt lat lon) (init tenant now) ops := by
  refine along_iff_of_invariant
    (I := fun s : LocSite ℝ (Shape ℝ) => s.tables.Indexed ∧ s.tables.Exact lat lon)
    (fun s c hi _ hc => ⟨indexed_stepOp hi.1 c, ?_⟩) (fun s c hi _ => ?_) ?_ .trivial
  · exact (exact_stepOp_iff hi.1 hi.2 c).mpr ((covering_iff c).mpr hc)
  · exact (indexed_stepOp hi.1 c).resolves_iff.trans
      ((exact_stepOp_iff hi.1 hi.2 c).trans (covering_iff c))
  · refine ⟨indexed_empty, ?_⟩
    constructor <;> exact fun _ h => absurd h not_mem_nil

/-- A fence with a circle of 111320 metres around the origin. -/
def circleFence {F : Type} [Math F] : List (LocOp F (Shape F)) :=
  [.cmd (.defFence "f" none),
    .cmd (.setFenceGeometry "f" (.circle ⟨Math.ofNat 0, Math.ofNat 0, Math.ofNat 111320⟩))]

/-- A point a little over a degree to the north is in the circle and not found; once the fence is
deleted, the origin cannot be resolved at all. -/
theorem circle_exceeds_box : let s : LocSite ℝ (Shape ℝ) := run stepOp (init "t" 0) circleFence
    s.tables.containing 1.001 0 = [1] ∧ s.tables.resolveFenceMembership 1.001 0 = .ok [] ∧
      ¬ Along stepOp (ResolvesAt 1.001 0) (init "t" 0) circleFence ∧
      (s.stepOp (.deleteFence "f")).tables.resolveFenceMembership 0 0 = .error (.noRows 1) ∧
      ¬ Along stepOp (ResolvesAt 0 0) (init "t" 0) (circleFence ++ [.deleteFence "f"]) := by
  intro s
  have hs : s.tables.fences = [⟨1, "f", none, some (.circle ⟨0, 0, 111320⟩)⟩] ∧
      s.tables.rtree = [(1, Circle.boundingBox ⟨0, 0, 111320⟩)] := by
    have hneg : ¬ (111320 : ℝ) < 0 := by norm_num
    simp [s, run, circleFence, stepOp, LocCmd.notNull, step, init, defFence, empty,
      fenceByID, insertFence, nextFenceKey, nextKey, Tally.find,
      alignedKeyOf, setFenceGeometry, fault, boundingBox,
      storeGeometry, reshape, Math.ofNat, hneg]
  have hnorth : (Circle.boundingBox ⟨0, 0, 111320⟩).overlaps 1.001 (0 : ℝ) = false := by
    rw [← Bool.not_eq_true, Circle.overlaps_iff, not_and_or]
    left
    simp only [Circle.dLat, metresPerDegreeLat, Math.ofNat]
    norm_num
  have horigin : (Circle.boundingBox ⟨0, 0, 111320⟩).overlaps (0 : ℝ) 0 = true :=
    Circle.overlaps_center (by norm_num)
  have hcontaining : s.tables.containing 1.001 0 = [1] := by
    have hcontains : contains (Shape.circle (F := ℝ) ⟨0, 0, 111320⟩) 1.001 0 = true :=
      Circle.contains_meridian (by norm_num) le_rfl
    simp [containing, hs.1, hcontains]
  have hresolve : s.tables.resolveFenceMembership 1.001 0 = .ok [] := by
    simp [resolveFenceMembership, hs.2, hnorth, resolveLoop]
  have hdeleted : (s.stepOp (.deleteFence "f")).tables.resolveFenceMembership 0 0 =
      .error (.noRows 1) := by
    have hfind : s.tables.fenceByID "f" ≠ none := by simp [fenceByID, hs.1]
    simp [stepOp, deleteFence, hfind, resolveFenceMembership, hs.2, horigin,
      resolveLoop, loadFenceGeometry, hs.1]
  refine ⟨hcontaining, hresolve, fun h => ?_, hdeleted, fun h => ?_⟩
  · obtain ⟨keys, hok, hperm⟩ := h.2.1
    cases hresolve.symm.trans hok
    change List.Perm [] ((s.tables.containing 1.001 0).map uint32) at hperm
    rw [hcontaining] at hperm
    exact absurd hperm.length_eq (by decide)
  · obtain ⟨keys, hok, -⟩ := (along_append.mp h).2.1
    cases hdeleted.symm.trans hok

end LocSite

end Xolu.Loc
