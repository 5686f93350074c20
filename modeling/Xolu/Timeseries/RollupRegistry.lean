/-
# Rollup definitions (pkg/timeseries/rollup.go and registry.go)

A rollup aggregates a source timeline into a destination timeline.  A definition is added if its
destination has no other source, the walk up from its source does not come to its destination, and
the chain through it is not longer than the configured depth.  A rollup is deleted with all rollups
below it, and a timeline with the rollups that have it as their source.

The definitions are a forest with bounded chains after every run (`tree_run`).  They name defined
timelines as long as no destination is deleted (`liveForest_run`): the rollups into a deleted
timeline are left as they are.
-/
import Xolu.Lib.Trees
import Xolu.Timeseries.Scan

namespace Xolu.Timeseries

open Function List BigEndian Keyed Pointers Relation Trees

/-- A `RollupDef`; the durations are in nanoseconds. -/
structure RollupDef where
  id : String
  sourceTID : UInt32
  destTID : UInt32
  bucketDuration : Int
  lateWindow : Int
deriving DecidableEq, Repr

/-- The errors of definitions. -/
inductive RollupError where
  /-- ErrTSRootTimeline. -/
  | rootTimeline
  /-- ErrTSReservedID. -/
  | reservedID
  /-- Dimensions out of their limits. -/
  | dims (given : Nat)
  /-- XOLU-TS004. -/
  | notDefined (id : UInt32)
  /-- XOLU-TS004, of a destination. -/
  | destNotDefined (id : UInt32)
  /-- A bucket duration that is not positive. -/
  | bucketDuration
  /-- ErrTSRollupCycle. -/
  | cycle (source dest : UInt32)
  /-- ErrTSRollupDestInUse. -/
  | destInUse (dest : UInt32) (id : String)
  /-- ErrTSRollupDepth. -/
  | depth (maxDepth : Nat)
  /-- ErrTSRollupNotFound. -/
  | notFound (id : String) (source : UInt32)
  /-- ErrTSRollupDestInUse, of a rollup with rollups below it. -/
  | hasDescendants (id : String) (count : Nat)
  /-- ErrTSRollupDestInUse, of a timeline with rollups. -/
  | hasRollups (id : UInt32) (count : Nat)
deriving DecidableEq, Repr

/-! ### The registry -/

variable (defs : List RollupDef)

def parentOf (tid : UInt32) : Option RollupDef := defs.find? fun d => d.destTID = tid

/-- `maxChildDepth`; the recursion goes down so many levels. -/
def maxChildDepth : List RollupDef → Nat → UInt32 → Nat :=
  height RollupDef.sourceTID RollupDef.destTID

def descendants (tid : UInt32) : List RollupDef :=
  bfs RollupDef.sourceTID RollupDef.destTID defs (defs.length + 1) [tid] []

/-- The loop of `add`: the number of steps up from a timeline, of which so many are left. -/
def walkUp (defs : List RollupDef) (d : RollupDef) (maxDepth : Nat) :
    Nat → Nat → UInt32 → Except RollupError Nat
  | left, depth, cur =>
    if cur = 0 then .ok depth
    else if cur = d.destTID then .error (.cycle d.sourceTID d.destTID)
    else
      match parentOf defs cur with
      | none => .ok depth
      | some p =>
        match left with
        | 0 => .error (.depth maxDepth)
        | left + 1 => walkUp defs d maxDepth left (depth + 1) p.sourceTID

/-- `add`: the registry with the definition, under its ID. -/
def addDef (d : RollupDef) (maxDepth : Nat) : Except RollupError (List RollupDef) :=
  match defs.find? fun e => e.destTID = d.destTID with
  | some e => .error (.destInUse d.destTID e.id)
  | none =>
    match walkUp defs d maxDepth maxDepth 0 d.sourceTID with
    | .error err => .error err
    | .ok depth =>
      if maxDepth < depth + 1 + maxChildDepth defs maxDepth d.destTID then .error (.depth maxDepth)
      else .ok (upsert RollupDef.id defs d)

/-- `remove`. -/
def removeDef (id : String) : List RollupDef := defs.filter fun d => d.id ≠ id

/-! ### The store -/

/-- A store with rollups: `RollupCascadeDelete` and `rollupMaxDepth` are its configuration. -/
structure RollupStore (V : Type) where
  store : PebbleStore V
  defs : List RollupDef
  cascadeDelete : Bool
  maxDepth : Nat

/-- The ID of a definition without one. -/
def generatedID (source dest : UInt32) (now : Int) : String :=
  toString source.toNat ++ "-" ++ toString dest.toNat ++ "-" ++ toString now

/-- The definition that is registered: with the source of the call, and an ID. -/
def RollupDef.registered (d : RollupDef) (source : UInt32) (now : Int) : RollupDef :=
  { d with
    id := if d.id = "" then generatedID source d.destTID now else d.id
    sourceTID := source }

namespace PebbleStore

variable {V : Type}

variable (s : PebbleStore V)

/-- `define`: a timeline that is defined keeps its definition. -/
def define (id : UInt32) (dims : Nat) : Except RollupError (PebbleStore V) :=
  if h : id = 0 then .error .reservedID
  else if dims < 1 ∨ 5 < dims then .error (.dims dims)
  else
    match s.registry id with
    | some _ => .ok s
    | none => .ok
      { s with
        registry := update s.registry id (some dims)
        reserved := (update_of_ne (Ne.symm h) _ _).trans s.reserved }

def deleteDataRange (id : UInt32) (dims : Nat) : PebbleStore V :=
  { s with
    db := s.db.deleteRange (encodePrefixKey id (fillDims dims 0))
      (increment (encodePrefixKey id (fillDims dims maxDim)))
    counter := update s.counter id 0 }

/-- `delete` of the registry. -/
def undefine (id : UInt32) : PebbleStore V :=
  { s with
    registry := update s.registry id none
    reserved := by
      by_cases h : 0 = id
      · rw [h, update_self]
      · rw [update_of_ne h, s.reserved] }

end PebbleStore

/-- The calls. -/
inductive RollupCmd where
  | defineTimeline (id : UInt32) (dims : Nat)
  | deleteTimeline (id : UInt32)
  | defineRollup (source : UInt32) (d : RollupDef) (now : Int)
  | deleteRollup (source : UInt32) (id : String)
deriving DecidableEq, Repr

namespace RollupStore

variable {V : Type}

variable (s : RollupStore V)

def defineTimeline (id : UInt32) (dims : Nat) : Except RollupError (RollupStore V) :=
  match s.store.define id dims with
  | .error err => .error err
  | .ok store => .ok { s with store }

/-- `DefineRollup` at a time.  The source in the definition is looked at before it is set. -/
def defineRollup (source : UInt32) (d : RollupDef) (now : Int) :
    Except RollupError (RollupStore V) :=
  if source = 0 then .error .rootTimeline
  else if s.store.registry source = none then .error (.notDefined source)
  else if s.store.registry d.destTID = none then .error (.destNotDefined d.destTID)
  else if d.destTID = 0 then .error .rootTimeline
  else if d.bucketDuration ≤ 0 then .error .bucketDuration
  else if d.sourceTID = d.destTID then .error (.cycle d.sourceTID d.destTID)
  else
    match addDef s.defs (d.registered source now) s.maxDepth with
    | .error err => .error err
    | .ok defs => .ok { s with defs }

/-- `DeleteRollup`, with the store it leaves. -/
def deleteRollup (source : UInt32) (id : String) : RollupStore V × Option RollupError :=
  if source = 0 then (s, some .rootTimeline)
  else
    match s.defs.find? fun d => d.id = id with
    | none => (s, some (.notFound id source))
    | some d =>
      if d.sourceTID ≠ source then (s, some (.notFound id source))
      else
        let below := descendants s.defs d.destTID
        if ¬ s.cascadeDelete ∧ 0 < below.length then (s, some (.hasDescendants id below.length))
        else
          -- the leaves first
          let defs := below.foldr (fun e defs => removeDef defs e.id) s.defs
          if id ∈ defs.map RollupDef.id then ({ s with defs := removeDef defs id }, none)
          else ({ s with defs }, some (.notFound id source))

/-- The loop of `DeleteTimeline` over the rollups of the timeline. -/
def deleteRollups (s : RollupStore V) (source : UInt32) :
    List RollupDef → RollupStore V × Option RollupError
  | [] => (s, none)
  | d :: rest =>
    match s.deleteRollup source d.id with
    | (s', some err) => (s', some err)
    | (s', none) => deleteRollups s' source rest

/-- `DeleteTimeline`, with the store it leaves. -/
def deleteTimeline (id : UInt32) : RollupStore V × Option RollupError :=
  if id = 0 then (s, some .rootTimeline)
  else
    match s.store.registry id with
    | none => (s, some (.notDefined id))
    | some dims =>
      let rollups := s.defs.filter fun d => d.sourceTID = id
      if 0 < rollups.length ∧ ¬ s.cascadeDelete then (s, some (.hasRollups id rollups.length))
      else
        match s.deleteRollups id rollups with
        | (s', some err) => (s', some err)
        | (s', none) =>
          ({ s' with store := (s'.store.deleteDataRange id dims).undefine id }, none)

/-- The store after a call; a definition that fails changes nothing. -/
def step : RollupCmd → RollupStore V
  | .defineTimeline id dims => (s.defineTimeline id dims).toOption.getD s
  | .deleteTimeline id => (s.deleteTimeline id).1
  | .defineRollup source d now => (s.defineRollup source d now).toOption.getD s
  | .deleteRollup source id => (s.deleteRollup source id).1

end RollupStore

/-! ### What the definitions are for -/

/-- A rollup leads from one timeline to another. -/
def Feeds (defs : List RollupDef) (a b : UInt32) : Prop :=
  ∃ d ∈ defs, d.sourceTID = a ∧ d.destTID = b

/-- The rollups of a store are a live forest. -/
structure RollupStore.LiveForest {V : Type} (s : RollupStore V) : Prop where
  oneSource : ∀ d ∈ s.defs, ∀ d' ∈ s.defs, d.destTID = d'.destTID → d.sourceTID = d'.sourceTID
  noCycle : ∀ tid, ¬ TransGen (Feeds s.defs) tid tid
  depth : ∀ chain : List RollupDef, chain ⊆ s.defs →
    chain.IsChain (fun d d' => d.destTID = d'.sourceTID) → chain.length ≤ s.maxDepth
  defined : ∀ d ∈ s.defs, s.store.registry d.sourceTID ≠ none ∧ s.store.registry d.destTID ≠ none

/-- A timeline that is deleted is not the destination of a rollup. -/
def RollupCmd.SparesDest {V : Type} (s : RollupStore V) : RollupCmd → Prop
  | .deleteTimeline id => ∀ d ∈ s.defs, d.destTID ≠ id
  | _ => True

instance {V : Type} (s : RollupStore V) : ∀ c : RollupCmd, Decidable (c.SparesDest s)
  | .deleteTimeline id => inferInstanceAs (Decidable (∀ d ∈ s.defs, d.destTID ≠ id))
  | .defineTimeline .. | .defineRollup .. | .deleteRollup .. => .isTrue trivial

/-! ### Adding a definition -/

/-- The timeline a rollup comes to a timeline from. -/
abbrev up (defs : List RollupDef) : UInt32 → Option UInt32 :=
  parent RollupDef.sourceTID RollupDef.destTID defs

/-- A registry that is a forest with chains up to a length. -/
structure Tree (maxDepth : Nat) (defs : List RollupDef) : Prop where
  ids : UniqueKey RollupDef.id defs
  forest : Forest RollupDef.sourceTID RollupDef.destTID defs
  depth : ∀ n x y, Steps (up defs) n x y → n ≤ maxDepth
  nonzero : ∀ d ∈ defs, d.destTID ≠ 0

section Add

variable {defs defs' : List RollupDef} {d : RollupDef} {maxDepth : Nat}

theorem steps_eq_zero {n : Nat} {cur y : UInt32} (h : up defs cur = none)
    (hpath : Steps (up defs) n cur y) : n = 0 := by
  rcases n with - | n
  · rfl
  · obtain ⟨c, hlink, -⟩ := hpath
    rw [h] at hlink
    cases hlink

theorem eq_of_reaches {cur y : UInt32} (h : up defs cur = none) (hpath : Reaches (up defs) cur y) :
    y = cur := by
  rcases hpath.cases_head with heq | ⟨c, hlink, -⟩
  · exact heq.symm
  · rw [Link, h] at hlink
    cases hlink

/-- **The walk up** does not come to the destination, and counts the longest way up. -/
theorem walkUp_spec {left depth depth' : Nat} {cur : UInt32} (hzero : up defs 0 = none)
    (hdest : d.destTID ≠ 0) (h : walkUp defs d maxDepth left depth cur = .ok depth') :
    ¬ Reaches (up defs) cur d.destTID ∧ ∀ n y, Steps (up defs) n cur y → depth + n ≤ depth' := by
  -- where the walk ends
  have hend : ∀ {cur : UInt32} {depth : Nat}, up defs cur = none → cur ≠ d.destTID →
      ¬ Reaches (up defs) cur d.destTID ∧ ∀ n y, Steps (up defs) n cur y → depth + n ≤ depth := by
    intro cur depth hnone hne
    refine ⟨fun hreach => hne (eq_of_reaches hnone hreach).symm, fun n y hpath => ?_⟩
    rw [steps_eq_zero hnone hpath, Nat.add_zero]
  fun_induction walkUp defs d maxDepth left depth cur with
  | case1 =>
    cases h
    exact hend hzero hdest.symm
  | case2 | case4 => cases h
  | case3 _ _ _ _ hcycle hparent =>
    cases h
    exact hend (by rw [up, parent, ← parentOf, hparent]; rfl) hcycle
  | case5 depth cur hcur hcycle p hparent left ih =>
    have hlink : up defs cur = some p.sourceTID := by
      rw [up, parent, ← parentOf, hparent]
      rfl
    obtain ⟨hreach, hdepth⟩ := ih h
    refine ⟨fun hpath => ?_, fun n y hpath => ?_⟩
    · rcases hpath.cases_head with heq | ⟨c, hc, hrest⟩
      · exact hcycle heq
      · rw [Link, hlink, Option.some.injEq] at hc
        exact hreach (hc ▸ hrest)
    · rcases n with - | n
      · have := hdepth 0 _ rfl
        omega
      · obtain ⟨c, hc, hrest⟩ := hpath
        rw [hlink, Option.some.injEq] at hc
        have := hdepth n y (hc ▸ hrest)
        omega

/-- The registry without some definitions. -/
theorem Tree.sublist (h : Tree maxDepth defs) (hsub : defs'.Sublist defs) :
    Tree maxDepth defs' where
  ids := h.ids.sublist (hsub.map RollupDef.id)
  forest := h.forest.sublist hsub
  depth n x y hpath := h.depth n x y
    (hpath.mono fun _ _ => parent_of_subset h.forest.unique hsub.subset)
  nonzero d hd := h.nonzero d (hsub.subset hd)

/-- **Adding a definition** keeps the forest. -/
theorem Tree.addDef (h : Tree maxDepth defs) (hdest : d.destTID ≠ 0)
    (hadd : addDef defs d maxDepth = .ok defs') :
    Tree maxDepth defs' ∧ defs' = upsert RollupDef.id defs d := by
  rw [Timeseries.addDef] at hadd
  rcases hfind : defs.find? (fun e => e.destTID = d.destTID) with - | e
  · rw [hfind] at hadd
    have hnew : ∀ e ∈ defs, e.destTID ≠ d.destTID := by
      intro e he
      simpa using find?_eq_none.mp hfind e he
    rcases hwalk : walkUp defs d maxDepth maxDepth 0 d.sourceTID with err | depth
    · rw [hwalk] at hadd
      cases hadd
    rw [hwalk] at hadd
    simp only at hadd
    split_ifs at hadd with hdepth
    cases hadd
    have hzero : up defs 0 = none := by
      by_contra hsome
      obtain ⟨src, hsome⟩ := Option.ne_none_iff_exists'.mp hsome
      obtain ⟨e, he, hzero, -⟩ := exists_of_parent hsome
      exact h.nonzero e he hzero
    obtain ⟨hreach, hup⟩ := walkUp_spec hzero hdest hwalk
    -- a pointer of the new registry is an old one or the new one
    have hlinks : ∀ a b, up (upsert RollupDef.id defs d) a = some b →
        update (up defs) d.destTID (some d.sourceTID) a = some b := by
      intro a b hparent
      obtain ⟨e, he, rfl, rfl⟩ := exists_of_parent hparent
      rcases mem_upsert.mp he with rfl | ⟨he, -⟩
      · exact update_self ..
      · rw [update_of_ne (hnew e he)]
        exact parent_of_mem h.forest.unique he
    refine ⟨⟨h.ids.upsert, ⟨?_, ?_⟩, fun n x y hpath => ?_, fun e he => ?_⟩, rfl⟩
    · refine List.Nodup.map_on (fun e he e' he' heq => ?_) (List.Nodup.of_map _ h.ids.upsert)
      rcases mem_upsert.mp he with rfl | ⟨hold, -⟩
      · rcases mem_upsert.mp he' with rfl | ⟨hold', -⟩
        · rfl
        · exact absurd heq.symm (hnew e' hold')
      · rcases mem_upsert.mp he' with rfl | ⟨hold', -⟩
        · exact absurd heq (hnew e hold)
        · exact h.forest.unique.eq_of_key hold hold' heq
    · exact (h.forest.acyclic.redirect hreach).mono hlinks
    · -- up to the destination, over the new rollup and on from its source
      rcases steps_of_update hreach (hpath.mono hlinks) with hold | ⟨i, j, rfl, hi, hj⟩
      · exact h.depth n x y hold
      · have hbelow := le_height hi (h.depth i _ _ hi)
        have habove := hup j y hj
        rw [maxChildDepth] at hdepth
        omega
    · rcases mem_upsert.mp he with rfl | ⟨he, -⟩
      · exact hdest
      · exact h.nonzero e he
  · rw [hfind] at hadd
    cases hadd

/-- What is below a timeline. -/
theorem Tree.mem_descendants_iff (h : Tree maxDepth defs) (tid : UInt32) :
    d ∈ descendants defs tid ↔ d ∈ defs ∧ Reaches (up defs) d.sourceTID tid :=
  mem_bfs_iff h.forest tid

end Add

/-! ### Deleting definitions -/

namespace RollupStore

variable {V : Type} {s : RollupStore V}

theorem removeDef_sublist (defs : List RollupDef) (id : String) :
    (removeDef defs id).Sublist defs := filter_sublist

theorem foldr_removeDef_sublist (below defs : List RollupDef) :
    (below.foldr (fun e defs => removeDef defs e.id) defs).Sublist defs := by
  induction below with
  | nil => exact List.Sublist.refl defs
  | cons e below ih => exact (removeDef_sublist _ e.id).trans ih

/-- The result of a deletion: some definitions are taken away, on success all of some. -/
def Deletes (s : RollupStore V) (gone : RollupDef → Prop)
    (result : RollupStore V × Option RollupError) : Prop :=
  ∃ defs, result.1 = { s with defs } ∧ defs.Sublist s.defs ∧
    (result.2 = none → ∀ d ∈ defs, ¬ gone d)

theorem deletes_error {gone : RollupDef → Prop} (err : RollupError) :
    Deletes s gone (s, some err) :=
  ⟨s.defs, rfl, List.Sublist.refl _, fun h => by cases h⟩

variable (s)

theorem deletes_deleteRollup (source : UInt32) (id : String) :
    Deletes s (·.id = id) (s.deleteRollup source id) := by
  unfold deleteRollup
  by_cases hroot : source = 0
  · rw [if_pos hroot]
    exact deletes_error _
  rw [if_neg hroot]
  split
  · exact deletes_error _
  simp only
  split_ifs with hsource hcascade hfound
  · exact deletes_error _
  · exact deletes_error _
  · refine ⟨_, rfl, (removeDef_sublist _ id).trans (foldr_removeDef_sublist _ _), fun _ d hd => ?_⟩
    exact of_decide_eq_true (mem_filter.mp hd).2
  · exact ⟨_, rfl, foldr_removeDef_sublist _ _, fun h => by cases h⟩

theorem deletes_deleteRollups (source : UInt32) (rollups : List RollupDef) :
    Deletes s (fun d => ∃ r ∈ rollups, d.id = r.id) (s.deleteRollups source rollups) := by
  induction rollups generalizing s with
  | nil =>
    refine ⟨s.defs, rfl, List.Sublist.refl _, fun _ d _ => ?_⟩
    rintro ⟨r, hr, -⟩
    exact absurd hr not_mem_nil
  | cons r rollups ih =>
    obtain ⟨defs, hfirst, hsub, hgone⟩ := s.deletes_deleteRollup source r.id
    rw [deleteRollups]
    rcases hdelete : s.deleteRollup source r.id with ⟨s', err⟩
    rw [hdelete] at hfirst hgone
    subst hfirst
    rcases err with - | err
    · obtain ⟨defs', hrest, hsub', hgone'⟩ := ih { s with defs }
      refine ⟨defs', hrest, hsub'.trans hsub, fun hnone d hd => ?_⟩
      rintro ⟨r', hr', heq⟩
      rcases mem_cons.mp hr' with rfl | hr'
      · exact hgone rfl d (hsub'.subset hd) heq
      · exact hgone' hnone d hd ⟨r', hr', heq⟩
    · exact ⟨defs, rfl, hsub, fun h => by cases h⟩

/-- What `DeleteTimeline` changes: definitions are taken away, and on success those of the timeline
and the timeline itself. -/
theorem deleteTimeline_spec (id : UInt32) :
    ∃ defs, defs.Sublist s.defs ∧ ((s.deleteTimeline id).1 = { s with defs } ∨
      ∃ dims, (∀ d ∈ defs, d.sourceTID ≠ id) ∧ (s.deleteTimeline id).1 =
        { s with defs, store := (s.store.deleteDataRange id dims).undefine id }) := by
  unfold deleteTimeline
  by_cases hroot : id = 0
  · rw [if_pos hroot]
    exact ⟨s.defs, List.Sublist.refl _, .inl rfl⟩
  rw [if_neg hroot]
  rcases s.store.registry id with - | dims
  · exact ⟨s.defs, List.Sublist.refl _, .inl rfl⟩
  simp only
  by_cases hrollups : 0 < (s.defs.filter fun d => d.sourceTID = id).length ∧ ¬ s.cascadeDelete
  · rw [if_pos hrollups]
    exact ⟨s.defs, List.Sublist.refl _, .inl rfl⟩
  rw [if_neg hrollups]
  obtain ⟨defs, hrest, hsub, hgone⟩ :=
    s.deletes_deleteRollups id (s.defs.filter fun d => d.sourceTID = id)
  refine ⟨defs, hsub, ?_⟩
  rcases hdelete : s.deleteRollups id (s.defs.filter fun d => d.sourceTID = id) with ⟨s', err⟩
  rw [hdelete] at hrest hgone
  subst hrest
  rcases err with - | err
  · refine .inr ⟨dims, fun d hd hsource => hgone rfl d hd ⟨d, ?_, rfl⟩, rfl⟩
    exact mem_filter.mpr ⟨hsub.subset hd, decide_eq_true hsource⟩
  · exact .inl rfl

variable {s}

/-- What `DefineRollup` adds. -/
theorem defineRollup_eq_ok {s' : RollupStore V} {source : UInt32} {d : RollupDef} {now : Int}
    (h : s.defineRollup source d now = .ok s') :
    s.store.registry source ≠ none ∧ s.store.registry d.destTID ≠ none ∧ d.destTID ≠ 0 ∧
      ∃ defs, addDef s.defs (d.registered source now) s.maxDepth = .ok defs ∧
        s' = { s with defs } := by
  unfold defineRollup at h
  split_ifs at h with hroot hsource hdest hzero hduration hsame
  rcases hadd : addDef s.defs (d.registered source now) s.maxDepth with err | defs
  · rw [hadd] at h
    cases h
  · rw [hadd] at h
    cases h
    exact ⟨hsource, hdest, hzero, defs, rfl, rfl⟩

variable (s)

/-- The definitions name defined timelines. -/
def Live : Prop :=
  ∀ d ∈ s.defs, s.store.registry d.sourceTID ≠ none ∧ s.store.registry d.destTID ≠ none

/-- **The forest after a call.** -/
theorem tree_step (c : RollupCmd) (h : Tree s.maxDepth s.defs) :
    Tree (step s c).maxDepth (step s c).defs := by
  cases c with
  | defineTimeline id dims =>
    rw [step, defineTimeline]
    rcases s.store.define id dims with err | store
    · exact h
    · exact h
  | deleteTimeline id =>
    obtain ⟨defs, hsub, hdelete | ⟨dims, -, hdelete⟩⟩ := s.deleteTimeline_spec id
    · rw [step, hdelete]
      exact h.sublist hsub
    · rw [step, hdelete]
      exact h.sublist hsub
  | defineRollup source d now =>
    rw [step]
    rcases hdefine : s.defineRollup source d now with err | s'
    · exact h
    · obtain ⟨-, -, hzero, defs, hadd, rfl⟩ := defineRollup_eq_ok hdefine
      exact (h.addDef (d := d.registered source now) hzero hadd).1
  | deleteRollup source id =>
    obtain ⟨defs, hdelete, hsub, -⟩ := s.deletes_deleteRollup source id
    rw [step, hdelete]
    exact h.sublist hsub

/-- **The timelines after a call** that spares the destinations. -/
theorem live_step (c : RollupCmd) (htree : Tree s.maxDepth s.defs)
    (h : s.Live) (hspares : c.SparesDest s) : (step s c).Live := by
  cases c with
  | defineTimeline id dims =>
    rw [step, defineTimeline]
    unfold PebbleStore.define
    split_ifs with hzero hdims
    · exact h
    · exact h
    · rcases hreg : s.store.registry id with - | old
      · -- one more timeline is defined
        have hmore : ∀ tid, s.store.registry tid ≠ none →
            update s.store.registry id (some dims) tid ≠ none := by
          intro tid htid
          by_cases heq : tid = id
          · rw [heq, update_self]
            exact Option.some_ne_none dims
          · rwa [update_of_ne heq]
        exact fun d hd => ⟨hmore _ (h d hd).1, hmore _ (h d hd).2⟩
      · exact h
  | deleteTimeline id =>
    obtain ⟨defs, hsub, hdelete | ⟨dims, hgone, hdelete⟩⟩ := s.deleteTimeline_spec id
    · rw [step, hdelete]
      exact fun d hd => h d (hsub.subset hd)
    · -- no rollup from the timeline is left, and there was none into it
      rw [step, hdelete]
      intro d hd
      have hsource := (h d (hsub.subset hd)).1
      have hdest := (h d (hsub.subset hd)).2
      refine ⟨?_, ?_⟩
      · rwa [← update_of_ne (hgone d hd) none s.store.registry] at hsource
      · rwa [← update_of_ne (hspares d (hsub.subset hd)) none s.store.registry] at hdest
  | defineRollup source d now =>
    rw [step]
    rcases hdefine : s.defineRollup source d now with err | s'
    · exact h
    · obtain ⟨hsource, hdest, hzero, defs, hadd, rfl⟩ := defineRollup_eq_ok hdefine
      obtain ⟨-, rfl⟩ := htree.addDef (d := d.registered source now) hzero hadd
      intro e he
      rcases mem_upsert.mp he with rfl | ⟨he, -⟩
      · exact ⟨hsource, hdest⟩
      · exact h e he
  | deleteRollup source id =>
    obtain ⟨defs, hdelete, hsub, -⟩ := s.deletes_deleteRollup source id
    rw [step, hdelete]
    exact fun d hd => h d (hsub.subset hd)

variable {s}

theorem tree_nil (maxDepth : Nat) : Tree maxDepth [] := by
  have hnone : up [] = fun _ => none := rfl
  refine ⟨nodup_nil, ⟨nodup_nil, ?_⟩, fun n x y hpath => ?_,
    fun d hd => absurd hd not_mem_nil⟩
  · exact acyclic_none
  · rw [steps_eq_zero rfl hpath]
    exact Nat.zero_le maxDepth

/-- **The definitions are a forest** after every run. -/
theorem tree_run (h : s.defs = []) (cs : List RollupCmd) :
    Tree (Runs.run step s cs).maxDepth (Runs.run step s cs).defs :=
  Runs.invariant_run (I := fun s : RollupStore V => Tree s.maxDepth s.defs) tree_step
    (h ▸ tree_nil s.maxDepth) cs

/-- A chain of rollups is a way up. -/
theorem Tree.steps_of_isChain {maxDepth : Nat} {defs : List RollupDef} (h : Tree maxDepth defs)
    {d : RollupDef} {chain : List RollupDef} (hsub : d :: chain ⊆ defs)
    (hchain : (d :: chain).IsChain fun d d' => d.destTID = d'.sourceTID) :
    ∃ x, Steps (up defs) (chain.length + 1) x d.sourceTID := by
  have hlink : up defs d.destTID = some d.sourceTID :=
    parent_of_mem h.forest.unique (hsub mem_cons_self)
  induction chain generalizing d with
  | nil => exact ⟨d.destTID, d.sourceTID, hlink, rfl⟩
  | cons d' chain ih =>
    obtain ⟨hfirst, hrest⟩ := isChain_cons_cons.mp hchain
    have hsub' := subset_of_cons_subset hsub
    obtain ⟨x, hpath⟩ := ih hsub' hrest (parent_of_mem h.forest.unique (hsub' mem_cons_self))
    rw [← hfirst] at hpath
    exact ⟨x, hpath.append ⟨d.sourceTID, hlink, rfl⟩⟩

theorem liveForest (htree : Tree s.maxDepth s.defs) (hlive : s.Live) : s.LiveForest where
  oneSource d hd d' hd' heq := by rw [htree.forest.unique.eq_of_key hd hd' heq]
  noCycle tid hcycle := by
    -- against the pointers
    refine htree.forest.acyclic tid (transGen_swap.mp (TransGen.mono (fun a b hfeeds => ?_) tid tid
      hcycle))
    obtain ⟨d, hd, rfl, rfl⟩ := hfeeds
    exact parent_of_mem htree.forest.unique hd
  depth chain hsub hchain := by
    rcases chain with - | ⟨d, chain⟩
    · exact Nat.zero_le _
    · obtain ⟨x, hpath⟩ := Tree.steps_of_isChain htree hsub hchain
      exact htree.depth _ _ _ hpath
  defined := hlive

/-- **The rollups are a live forest** in every state of a run that deletes no timeline while it is
the destination of a rollup. -/
theorem liveForest_run (h : s.defs = []) {cs : List RollupCmd}
    (hcs : Runs.Along step (fun s c => c.SparesDest s) s cs) : (Runs.run step s cs).LiveForest := by
  have hinv : Tree (Runs.run step s cs).maxDepth (Runs.run step s cs).defs ∧
      (Runs.run step s cs).Live :=
    Runs.invariant_of_along (I := fun s : RollupStore V => Tree s.maxDepth s.defs ∧ s.Live)
      (fun s c hs hc => ⟨tree_step s c hs.1, live_step s c hs.1 hs.2 hc⟩)
      ⟨h ▸ tree_nil s.maxDepth, fun d hd => absurd (h ▸ hd) not_mem_nil⟩ hcs
  exact liveForest hinv.1 hinv.2

/-- A store without timelines. -/
def empty (V : Type) : RollupStore V := ⟨PebbleStore.init (fun _ => none) rfl, [], true, 4⟩

/-- An hour of nanoseconds, and a day. -/
def hourly : RollupDef := ⟨"hourly", 0, 2, 3600000000000, 0⟩

def daily : RollupDef := ⟨"daily", 0, 3, 86400000000000, 0⟩

/-- Hours and days are defined, and the source of the hours is deleted with them. -/
def cascade : List RollupCmd :=
  [.defineTimeline 1 1, .defineTimeline 2 1, .defineTimeline 3 1, .defineRollup 1 hourly 0,
    .defineRollup 2 daily 0, .deleteTimeline 1]

theorem liveForest_cascade : (Runs.run step (empty Nat) cascade).LiveForest :=
  liveForest_run rfl (by decide +kernel)

/-- The destination of a rollup is deleted. -/
def orphaned : RollupStore Nat :=
  Runs.run step (empty Nat) [.defineTimeline 1 1, .defineTimeline 2 1, .defineRollup 1 hourly 0,
    .deleteTimeline 2]

/-- The rollup stays. -/
theorem deleteTimeline_leaves_rollup :
    orphaned.defs = [{ hourly with sourceTID := 1 }] ∧ ¬ orphaned.LiveForest := by
  have hdefs : orphaned.defs = [{ hourly with sourceTID := 1 }] := by decide +kernel
  refine ⟨hdefs, fun hlive => ?_⟩
  have hdefined := (hlive.defined { hourly with sourceTID := 1 } (by rw [hdefs]; simp)).2
  exact hdefined (by decide +kernel)

end RollupStore

end Xolu.Timeseries
