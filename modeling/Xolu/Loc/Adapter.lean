/-
# Moves as a dxp participant (pkg/loc/dxp_adapter.go)

A transaction reserves a move.  `reserve` compares the count of the leaf, with the pessimistic
claims on it, to its ceiling, holds a claim and stashes the parameters; `validate` compares
again.  `execute` is `moveInTx` with the stashed parameters, which name no fences.

`LocSite` is one tenant's tables, claims and stash, with the clock, and its commands are all
the ways the tables are written.  `Change` lists what a command can do to them: a location or
a fence is added, a subject moves, by itself or for a transaction, or reports, or nothing
that counts changes (`Upkeep`).
-/
import Xolu.Loc.Admission
import Xolu.Dxp.Cache

namespace Xolu.Loc

open List Dxp Keyed Tally Tables

structure DxpMoveParams where
  subjectRef : String
  toLocationID : String
deriving DecidableEq, Repr

/-- The move that `Execute` makes. -/
def DxpMoveParams.move (tp : DxpMoveParams) : MoveParams where
  subjectRef := tp.subjectRef
  toLocationID := tp.toLocationID
  enteredFenceKeys := none
  exitedFenceKeys := none

def leafResource (locationKey : Nat) : String := s!"loc:leaf:{locationKey}"

/-- One tenant's locations with its dxp participant. -/
structure LocSite (F G : Type) where
  tenant : String
  tables : Tables F G
  cache : MemCache
  pending : String → Option DxpMoveParams
  now : Int

/-- A step of a tenant. -/
inductive LocCmd (F G : Type) where
  | defLocation (d : LocationDef F)
  | patch (id : String) (p : PatchParams F)
  | defFence (id : String) (aligned : Option String)
  | setFenceGeometry (id : String) (g : G)
  | setFenceCeiling (key : Nat) (ceiling : Int)
  | move (o : MapOrder) (p : MoveParams)
  | report (o : MapOrder) (subject : String) (lat lon : F)
  | reserve (tenant : String) (tp : DxpMoveParams) (txn participantID : String)
    (deadline : Int) (w : Weight)
  | validate (c : Claim)
  | execute (c : Claim)
  | postCommit (c : Claim)
  | release (c : Claim)
  | confirmTxn (txn : String)
  | releaseTxn (txn : String)
  /-- Time passes, and deadlines with it. -/
  | tick (d : Nat)

/-- A command that adds a location or a fence, or changes one. -/
def LocCmd.defines {F G : Type} : LocCmd F G → Bool
  | .defLocation _ | .patch .. | .defFence .. | .setFenceGeometry .. => true
  | _ => false

namespace LocSite

variable {F G : Type}

section

variable (s : LocSite F G)

def leafCapacitySnapshot (id : String) : Except LocError (Counter Nat) :=
  match (s.tables.locationByID id).bind fun l => find s.tables.capacity l.key with
  | none => .error (.unknownLocation id)
  | some c => .ok c

def pessimisticClaimSum (tenant resource : String) : Int :=
  (((s.cache.claimsFor s.now tenant "loc" resource).filter (·.weight = .pessimistic)).map
    Claim.amount).sum

def reserve (tenant : String) (tp : DxpMoveParams) (txn participantID : String)
    (deadline : Int) (w : Weight) : Except LocError Claim × LocSite F G :=
  if tp.subjectRef = "" ∨ tp.toLocationID = "" then (.error .emptyMove, s)
  else if s.tenant ≠ tenant then (.error (.tenantMismatch tenant), s)
  else
    match s.leafCapacitySnapshot tp.toLocationID with
    | .error e => (.error e, s)
    | .ok leaf =>
      let resource := leafResource leaf.key
      let claimed := s.pessimisticClaimSum tenant resource
      if leaf.ceiling.any (· < leaf.count + claimed + 1) then
        (.error (.capacity .leaf (uint32 leaf.key)), s)
      else
        let cl : Claim := ⟨txn, "loc", tenant, resource, w, 1, deadline, participantID⟩
        (.ok cl, { s with
          cache := s.cache.hold cl
          pending := Function.update s.pending (pendingKey txn participantID) (some tp) })

def validate (c : Claim) : Except LocError Unit :=
  if c.weight = .optimistic then .ok ()
  else
    match s.pending (claimKey c) with
    | none => .error (.noPending c.txn c.participantId)
    | some tp =>
      match s.leafCapacitySnapshot tp.toLocationID with
      | .error e => .error e
      | .ok leaf =>
        -- the claim itself is in the sum
        if leaf.ceiling.any
            (· < leaf.count + s.pessimisticClaimSum c.tenant (leafResource leaf.key)) then
          .error (.capacity .leaf (uint32 leaf.key))
        else .ok ()

/-- `Execute`, and the end of its transaction. -/
def execute (c : Claim) : Except LocError Nat × LocSite F G :=
  match s.pending (claimKey c) with
  | none => (.error (.noPending c.txn c.participantId), s)
  | some tp =>
    let (r, tables) := atomically (moveInTx tp.move) s.tables
    (r, { s with tables := tables })

/-- `Release`, and `PostCommit`, which is the same. -/
def release (c : Claim) : LocSite F G :=
  { s with pending := Function.update s.pending (claimKey c) none }

end

/-- A tenant without locations. -/
def init (tenant : String) (now : Int) : LocSite F G where
  tenant := tenant
  tables := .empty
  cache := .empty
  pending := fun _ => none
  now := now

variable [BEq F] [LE F] [DecidableLE F] [Geometry F G]

/-- The site after a step. -/
def step (s : LocSite F G) : LocCmd F G → LocSite F G
  | .defLocation d => { s with tables := (s.tables.defLocation d).2 }
  | .patch id p => { s with tables := (s.tables.patch id p).2 }
  | .defFence id aligned => { s with tables := (s.tables.defFence id aligned).2 }
  | .setFenceGeometry id g => { s with tables := (s.tables.setFenceGeometry id g).2 }
  | .setFenceCeiling key ceiling => { s with tables := s.tables.setFenceCeiling key ceiling }
  | .move o p => { s with tables := (s.tables.move o p).2 }
  | .report o subject lat lon => { s with tables := (s.tables.report o subject lat lon).2 }
  | .reserve tenant tp txn participantID deadline w =>
    (s.reserve tenant tp txn participantID deadline w).2
  | .validate _ => s
  | .execute c => (s.execute c).2
  | .postCommit c => s.release c
  | .release c => s.release c
  | .confirmTxn txn => { s with cache := (s.cache.confirmTxn s.now s.tenant txn).2 }
  | .releaseTxn txn => { s with cache := (s.cache.releaseTxn s.now s.tenant txn).2 }
  | .tick d => { s with now := s.now + d }

end LocSite

/-! ### What a step does to the tables -/

/-- A journal row that is about no subject and no fence. -/
def JournalRow.Idle {F : Type} (r : JournalRow F) : Prop :=
  r.kind = .anchor ∧ r.enteredFenceKeys = some [] ∧ r.exitedFenceKeys = some []

namespace Tables

variable {F G : Type}

/-- Nothing that counts changes. -/
structure Upkeep (t t' : Tables F G) : Prop where
  tree : t'.locations.map (fun l => (l.key, l.id, l.parentKey)) =
    t.locations.map fun l => (l.key, l.id, l.parentKey)
  capacityKeys : t'.capacity.map Counter.key = t.capacity.map Counter.key
  capacity : ∀ k, countOf t'.capacity k = countOf t.capacity k
  alignment : t'.fences.map (fun f => (f.key, f.alignedLocationKey)) =
    t.fences.map fun f => (f.key, f.alignedLocationKey)
  rtree : ∀ e ∈ t'.rtree, e ∈ t.rtree ∨ e.1 ∈ t.fences.map Fence.key
  fenceCapacityKeys : t'.fenceCapacity.map Counter.key = t.fenceCapacity.map Counter.key
  fenceCapacity : ∀ k, countOf t'.fenceCapacity k = countOf t.fenceCapacity k
  membership : t'.membership = t.membership
  assignment : t'.assignment = t.assignment
  journal : ∃ rows, t'.journal = t.journal ++ rows ∧ ∀ r ∈ rows, r.Idle

variable {t t' : Tables F G}

theorem Upkeep.refl (t : Tables F G) : Upkeep t t where
  tree := rfl
  capacityKeys := rfl
  capacity _ := rfl
  alignment := rfl
  rtree _ he := .inl he
  fenceCapacityKeys := rfl
  fenceCapacity _ := rfl
  membership := rfl
  assignment := rfl
  journal := ⟨[], (append_nil _).symm, fun _ h => nomatch h⟩

theorem Upkeep.setLeafCeiling (h : Upkeep t t') (key : Nat) (ceiling : Option Int) :
    Upkeep t (t'.setLeafCeiling key ceiling) :=
  { h with
    capacityKeys := (keys_setCeiling key ceiling).trans h.capacityKeys
    capacity := fun k => (countOf_setCeiling key ceiling k).trans (h.capacity k) }

theorem upkeep_setFenceCeiling (key : Nat) (ceiling : Int) :
    Upkeep t (t.setFenceCeiling key ceiling) :=
  { Upkeep.refl t with
    fenceCapacityKeys := keys_setCeiling _ _
    fenceCapacity := countOf_setCeiling _ _ }

theorem upkeep_updateLocation (key : Nat) (name : Option String)
    (placement : Option (Placement F)) : Upkeep t (t.updateLocation key name placement) :=
  { Upkeep.refl t with
    tree := by
      change (t.locations.map _).map _ = _
      rw [map_map]
      refine map_congr_left fun l _ => ?_
      obtain ⟨hkey, hid, hparent⟩ := relabel_keeps key name placement l
      rw [Function.comp_apply, hkey, hid, hparent] }

theorem Upkeep.append (h : Upkeep t t') (hjournal : t'.journal = t.journal) {row : JournalRow F}
    (hrow : row.Idle) : Upkeep t (t'.append row) :=
  { h with
    journal := ⟨[row], congrArg (· ++ [row]) hjournal, by simpa using hrow⟩ }

/-- Upkeep that leaves the fences alone. -/
def UpkeepLocations (t t' : Tables F G) : Prop :=
  Upkeep t t' ∧ t'.fences = t.fences ∧ t'.rtree = t.rtree

theorem upkeep_patchPlacement [BEq F] (l : Location F) (p : PatchParams F) :
    UpkeepLocations t (t.patchPlacement l p) := by
  have hupdate := @upkeep_updateLocation F G t l.key p.name p.placement
  unfold patchPlacement
  split
  · exact ⟨hupdate, rfl, rfl⟩
  · split
    · exact ⟨hupdate.append rfl ⟨rfl, rfl, rfl⟩, rfl, rfl⟩
    · exact ⟨hupdate, rfl, rfl⟩

theorem upkeep_patchInTx [BEq F] (l : Location F) (p : PatchParams F) :
    UpkeepLocations t (patchInTx l p t).2 := by
  have hplacement := @upkeep_patchPlacement F G t _ l p
  unfold patchInTx
  split
  · exact hplacement
  · split_ifs
    · exact hplacement
    · exact hplacement
    · exact ⟨hplacement.1.setLeafCeiling .., hplacement.2⟩

theorem upkeep_patch [BEq F] (id : String) (p : PatchParams F) :
    UpkeepLocations t (t.patch id p).2 := by
  have hrefl : UpkeepLocations t t := ⟨.refl t, rfl, rfl⟩
  unfold patch
  split_ifs
  · exact hrefl
  · rcases t.locationByID id with - | l
    · exact hrefl
    · exact atomically_rule hrefl fun _ _ => upkeep_patchInTx l p

/-- `Patch` is admitted: the location is there and takes a ceiling, if one is given. -/
structure Patchable (t : Tables F G) (id : String) (p : PatchParams F) (l : Location F) :
    Prop where
  found : t.locationByID id = some l
  ceiling : ∀ ceiling ∈ p.ceiling, l.postable = true ∧ ceiling.any (· < 0) = false

theorem locations_patchPlacement [BEq F] (l : Location F) (p : PatchParams F) :
    (t.patchPlacement l p).locations = t.locations.map (relabel l.key p.name p.placement) := by
  unfold patchPlacement
  split
  · rfl
  · split <;> rfl

variable {p : PatchParams F}

theorem patch_of_patchable [BEq F] {id : String} {l : Location F}
    (h : t.Patchable id p l) : (t.patch id p).1 = .ok () ∧
      (t.patch id p).2.locations = t.locations.map (relabel l.key p.name p.placement) := by
  unfold patch
  split_ifs with hnothing
  · refine ⟨rfl, ?_⟩
    rw [hnothing.1, Option.isNone_iff_eq_none.mp hnothing.2.1]
    refine ((map_congr_left fun m _ => ?_).trans (map_id _)).symm
    unfold relabel
    split <;> rfl
  · have htx : (patchInTx l p t).1 = .ok () ∧
        (patchInTx l p t).2.locations = (t.patchPlacement l p).locations := by
      unfold patchInTx
      rcases hp : p.ceiling with - | ceiling
      · exact ⟨rfl, rfl⟩
      · obtain ⟨hpostable, hceiling⟩ := h.ceiling ceiling hp
        simp only [hpostable, hceiling]
        exact ⟨rfl, rfl⟩
    rw [h.found]
    have hok := (fst_atomically (patchInTx l p) t).trans htx.1
    refine ⟨hok, ?_⟩
    rw [← locations_patchPlacement, ← htx.2, atomically_ok hok]

theorem patch_of_not_patchable [BEq F] {id : String}
    (h : ∀ l, ¬ t.Patchable id p l) : (t.patch id p).2 = t := by
  unfold patch
  split_ifs
  · rfl
  rcases hl : t.locationByID id with - | l
  · rfl
  rcases htx : (atomically (patchInTx l p) t).1 with e | u
  · exact atomically_error htx
  · refine absurd ⟨hl, fun ceiling hceiling => ?_⟩ (h l)
    rw [fst_atomically] at htx
    simp only [patchInTx, Option.mem_def.mp hceiling] at htx
    split_ifs at htx with hpostable hneg
    exact ⟨by simpa using hpostable, by simpa using hneg⟩

theorem upkeep_setFenceGeometry [Geometry F G] (id : String) (g : G) :
    Upkeep t (t.setFenceGeometry id g).2 := by
  unfold setFenceGeometry
  split
  · exact .refl t
  · next f hf =>
    split
    · exact .refl t
    · refine { Upkeep.refl t with alignment := ?_, rtree := ?_ }
      · change (t.fences.map _).map _ = _
        rw [map_map]
        refine map_congr_left fun f' _ => ?_
        obtain ⟨hkey, -, haligned⟩ := reshape_keeps f.key g f'
        rw [Function.comp_apply, hkey, haligned]
      · intro e he
        rcases mem_append.mp he with he | he
        · exact .inl (mem_filter.mp he).1
        · rw [mem_singleton.mp he]
          exact .inr (mem_map_of_mem (mem_of_find?_eq_some hf))

/-- The rows of the locations, the fences and the R-tree stay. -/
def SameRows (t t' : Tables F G) : Prop :=
  t'.locations = t.locations ∧ t'.fences = t.fences ∧ t'.rtree = t.rtree

end Tables

/-- What a command does to the tables of a site. -/
inductive Change {F G : Type} [LE F] [DecidableLE F] [Geometry F G] (s : LocSite F G) :
    LocCmd F G → Tables F G → Prop
  | upkeep {c t'} : s.tables.Upkeep t' → Change s c t'
  | location {d} (hid hcap) : Change s (.defLocation d) (s.tables.insertLocation d hid hcap)
  | fence {id aligned} (hne : id ≠ "") (hid hcap) : Change s (.defFence id aligned)
      (s.tables.insertFence id aligned hid hcap)
  | moved {o p p' l t'} : p.subjectRef ≠ "" → s.tables.withDelta o p = .ok p' →
      s.tables.Moved p' l t' → Change s (.move o p) t'
  | executed {c tp l t'} : s.pending (claimKey c) = some tp → s.tables.Moved tp.move l t' →
      Change s (.execute c) t'
  | reported {o subject lat lon new t'} : subject ≠ "" →
      s.tables.resolveFenceMembership lat lon = .ok new →
      s.tables.Reported (s.tables.openReport o subject lat lon new) t' →
      Change s (.report o subject lat lon) t'

namespace LocSite

variable {F G : Type} [BEq F] [LE F] [DecidableLE F] [Geometry F G]

omit [BEq F] [LE F] [DecidableLE F] [Geometry F G] in
theorem tables_reserve (s : LocSite F G) (tenant : String) (tp : DxpMoveParams)
    (txn participantID : String) (deadline : Int) (w : Weight) :
    (s.reserve tenant tp txn participantID deadline w).2.tables = s.tables := by
  unfold reserve
  split_ifs
  · rfl
  · rfl
  · rcases s.leafCapacitySnapshot tp.toLocationID with e | leaf
    · rfl
    · dsimp only
      split_ifs <;> rfl

/-- `Execute` moves the subject or does nothing. -/
theorem execute_tables {s : LocSite F G} {c : Dxp.Claim} {tp : DxpMoveParams}
    (h : s.pending (claimKey c) = some tp) :
    (s.step (.execute c)).tables = (atomically (moveInTx tp.move) s.tables).2 := by
  change (s.execute c).2.tables = _
  simp only [execute, h]

/-- **A step** does nothing that is not listed; the rows of the locations, the fences and the
R-tree stay, unless one is defined or changed. -/
theorem change_step (s : LocSite F G) (c : LocCmd F G) : Change s c (s.step c).tables ∧
    (c.defines = false → s.tables.SameRows (s.step c).tables) := by
  have hkeep : ∀ {c t'}, t' = s.tables →
      Change s c t' ∧ (c.defines = false → s.tables.SameRows t') := by
    rintro c _ rfl
    exact ⟨.upkeep (.refl _), fun _ => ⟨rfl, rfl, rfl⟩⟩
  cases c with
  | defLocation d =>
    refine ⟨?_, fun h => by cases h⟩
    change Change s _ (s.tables.defLocation d).2
    unfold defLocation
    split_ifs with _ _ hid _ hcap
    · exact .upkeep (.refl _)
    · exact .upkeep (.refl _)
    · exact .upkeep (.refl _)
    · exact .location hid hcap
    · exact .upkeep (.refl _)
    · exact .upkeep (.refl _)
  | patch id p => exact ⟨.upkeep (upkeep_patch id p).1, fun h => by cases h⟩
  | defFence id aligned =>
    refine ⟨?_, fun h => by cases h⟩
    change Change s _ (s.tables.defFence id aligned).2
    unfold defFence
    split_ifs with hne hid _ hcap
    · exact .upkeep (.refl _)
    · exact .upkeep (.refl _)
    · exact .fence hne hid hcap
    · exact .upkeep (.refl _)
    · exact .upkeep (.refl _)
  | setFenceGeometry id g => exact ⟨.upkeep (upkeep_setFenceGeometry id g), fun h => by cases h⟩
  | setFenceCeiling key ceiling =>
    exact ⟨.upkeep (upkeep_setFenceCeiling key ceiling), fun _ => ⟨rfl, rfl, rfl⟩⟩
  | move o p =>
    rcases h : (s.tables.move o p).1 with e | u
    · exact hkeep (move_spec h).1
    · obtain ⟨hs, p', l, hp', hmoved⟩ := move_spec h
      exact ⟨.moved hs hp' hmoved, fun _ => ⟨hmoved.locations, hmoved.fences, hmoved.rtree⟩⟩
  | report o subject lat lon =>
    rcases h : (s.tables.report o subject lat lon).1 with e | u
    · exact hkeep (report_spec h)
    · obtain ⟨hs, new, hnew, ⟨-, hsame⟩ | hreported⟩ := report_spec h
      · exact hkeep hsame
      · exact ⟨.reported hs hnew hreported, fun _ =>
          ⟨hreported.locations, hreported.fences, hreported.rtree⟩⟩
  | execute c =>
    rcases hp : s.pending (claimKey c) with - | tp
    · refine hkeep ?_
      change (s.execute c).2.tables = _
      simp only [execute, hp]
    · rw [execute_tables hp]
      refine atomically_rule (P := fun t => Change s (.execute c) t ∧
        (_ → s.tables.SameRows t)) (hkeep rfl) ?_
      intro key hkey
      obtain ⟨l, hmoved⟩ := moved_of_moveInTx hkey
      exact ⟨.executed hp hmoved, fun _ => ⟨hmoved.locations, hmoved.fences, hmoved.rtree⟩⟩
  | reserve => exact hkeep (s.tables_reserve ..)
  | validate | postCommit | release | confirmTxn | releaseTxn | tick => exact hkeep rfl

variable {c : LocCmd F G}

/-- The locations stay, unless one is defined or patched. -/
theorem locations_step (s : LocSite F G) (hdef : ∀ d, c ≠ .defLocation d)
    (hpatch : ∀ id p, c ≠ .patch id p) : (s.step c).tables.locations = s.tables.locations := by
  cases c with
  | defLocation d => exact absurd rfl (hdef d)
  | patch id p => exact absurd rfl (hpatch id p)
  | defFence id aligned =>
    change (s.tables.defFence id aligned).2.locations = _
    unfold defFence
    split_ifs <;> rfl
  | setFenceGeometry id g =>
    change (s.tables.setFenceGeometry id g).2.locations = _
    unfold setFenceGeometry
    split
    · rfl
    · split <;> rfl
  | _ => exact ((s.change_step _).2 rfl).1

/-- The fences and the R-tree stay, unless one is defined or gets a shape. -/
theorem fences_step (s : LocSite F G)
    (hdef : ∀ id aligned, c ≠ .defFence id aligned) (hshape : ∀ id g, c ≠ .setFenceGeometry id g) :
    (s.step c).tables.fences = s.tables.fences ∧ (s.step c).tables.rtree = s.tables.rtree := by
  cases c with
  | defLocation d =>
    change (s.tables.defLocation d).2.fences = _ ∧ (s.tables.defLocation d).2.rtree = _
    unfold defLocation
    split_ifs <;> exact ⟨rfl, rfl⟩
  | patch id p => exact (upkeep_patch id p).2
  | defFence id aligned => exact absurd rfl (hdef id aligned)
  | setFenceGeometry id g => exact absurd rfl (hshape id g)
  | _ => exact ((s.change_step _).2 rfl).2

end LocSite

end Xolu.Loc
