/-
# Calls that overlap, and obj as a dxp participant (pkg/obj/dxp_adapter.go)

`ObjSite` is one tenant's tables with the calls that are open and the dxp participant.  `Move` and
`Detach` read before their transaction opens: their reads are one step, which leaves the call open,
and `commit` is the transaction of an open call.  All other calls are one step, and so is `Execute`
with its transaction.  A `Move` to a container makes no reads of its own.

`Effect` lists what a step can do to the tables, with what the code has checked; `effect` says
which of them a command has, and `tables_step` that this is what it does.
-/
import Xolu.Obj.Rows
import Xolu.Dxp.Cache
import Xolu.Lib.Run

namespace Xolu.Obj

open Dxp Graphalgo Tables
open Loc (LocError)

/-- What a transaction asks for: a new subject in a container. -/
structure DxpAttachAndContainParams (F : Type) where
  subjectRef : String
  containerRef : String
  capacity : Capacity F
deriving DecidableEq, Repr

/-- The subject that a transaction takes away. -/
structure DxpDetachParams where
  subjectRef : String
deriving DecidableEq, Repr

/-- `dxp.OpParams`, as obj takes them. -/
inductive OpParams (F : Type) where
  | attachAndContain (tp : DxpAttachAndContainParams F)
  | detach (tp : DxpDetachParams)
deriving DecidableEq, Repr

/-- The resource that claims on a container compete for. -/
def containerResource (containerRef : String) : String := "obj:container:" ++ containerRef

/-- A call whose reads are made and whose transaction is not. -/
inductive Call where
  | move (r : Relocation)
  | detach (ref : String)
deriving DecidableEq, Repr

/-- The transaction of an open call. -/
def Call.inTx {F : Type} (t : Tables F) : Call → Except ObjError (Tables F)
  | .move r => .ok (t.relocateInTx r)
  | .detach ref => t.detachInTx ref

/-- One tenant's subjects. -/
structure ObjSite (F : Type) where
  tenant : String
  tables : Tables F
  calls : List Call
  cache : MemCache
  pending : String → Option (OpParams F)
  now : Int

/-- A step of a tenant. -/
inductive ObjCmd (F : Type) where
  | attach (ref : String) (capacity : Capacity F)
  /-- The reads of `Move`, with what /loc says; a `Move` to a container as a whole. -/
  | readMove (ref : String) (target : MoveTarget) (verdict : Except LocError Unit)
  | moveToContainer (ref container : String)
  /-- The reads of `Detach`. -/
  | readDetach (ref : String)
  /-- The transaction of an open call. -/
  | commit (i : Nat)
  | retire (ref : String)
  | setCapacity (ref : String) (capacity : Capacity F)
  | reserve (tenant : String) (op : OpParams F) (txn participantID : String) (deadline : Int)
    (w : Weight)
  | validate (c : Claim)
  | execute (c : Claim)
  | postCommit (c : Claim)
  | release (c : Claim)
  | confirmTxn (txn : String)
  | releaseTxn (txn : String)
  /-- Time passes, and deadlines with it. -/
  | tick (d : Nat)

namespace ObjSite

variable {F : Type}

section

variable (s : ObjSite F)

/-- The end of a transaction: a commit, or a rollback after an error. -/
def settle : Except ObjError (Tables F) → ObjSite F
  | .ok t => { s with tables := t }
  | .error _ => s

/-- The places that live pessimistic claims hold. -/
def pessimisticClaimSum (tenant resource : String) : Int :=
  (((s.cache.claimsFor s.now tenant "obj" resource).filter (·.weight = .pessimistic)).map
    Claim.amount).sum

/-- The claim is held and the parameters are stashed. -/
def hold (cl : Claim) (op : OpParams F) : ObjSite F :=
  { s with
    cache := s.cache.hold cl
    pending := Function.update s.pending (claimKey cl) (some op) }

/-- `Reserve`: claims on the container count as if their subjects were in it. -/
def reserve (tenant : String) (op : OpParams F) (txn participantID : String)
    (deadline : Int) (w : Weight) : Except ObjError Claim × ObjSite F :=
  if s.tenant ≠ tenant then (.error (.tenantMismatch tenant), s)
  else
    match op with
    | .attachAndContain tp =>
      if tp.subjectRef = "" ∨ tp.containerRef = "" then (.error .emptyRef, s)
      else if tp.subjectRef = tp.containerRef then
        (.error (.containmentCycle tp.subjectRef tp.containerRef), s)
      else
        match s.tables.get tp.containerRef with
        | .error e => (.error e, s)
        | .ok (container, _) =>
          let resource := containerResource tp.containerRef
          let claimed := s.pessimisticClaimSum tenant resource
          if container.capacity.maxCount.any (· < container.curCount + claimed + 1) then
            (.error (.capacity tp.containerRef), s)
          else
            let cl : Claim := ⟨txn, "obj", tenant, resource, w, 1, deadline, participantID⟩
            (.ok cl, s.hold cl op)
    | .detach tp =>
      if tp.subjectRef = "" then (.error .emptyRef, s)
      else
        -- nothing is consumed, so the resource is one that no other claim has
        let resource := "obj:detach:" ++ txn ++ ":" ++ participantID
        let cl : Claim := ⟨txn, "obj", tenant, resource, w, 1, deadline, participantID⟩
        (.ok cl, s.hold cl op)

/-- `Validate`: the check of `Reserve` again, for a pessimistic claim. -/
def validate (c : Claim) : Except ObjError Unit :=
  if c.weight = .optimistic then .ok ()
  else
    match s.pending (claimKey c) with
    | none => .error (.noPending c.txn c.participantId)
    | some (.detach _) => .ok ()
    | some (.attachAndContain tp) =>
      match s.tables.get tp.containerRef with
      | .error e => .error e
      | .ok (container, _) =>
        -- the claim itself is in the sum
        if container.capacity.maxCount.any (· < container.curCount +
            s.pessimisticClaimSum c.tenant (containerResource tp.containerRef)) then
          .error (.capacity tp.containerRef)
        else .ok ()

/-- `Execute`: the writes of the stashed operation. -/
def execute (c : Claim) : Except ObjError (Tables F) :=
  match s.pending (claimKey c) with
  | none => .error (.noPending c.txn c.participantId)
  | some (.attachAndContain tp) =>
    s.tables.attachAndContainInTx tp.subjectRef tp.containerRef tp.capacity
  | some (.detach tp) => s.tables.unassignAndDetachInTx tp.subjectRef

/-- `Release`, and `PostCommit`, which is the same up to the mirror. -/
def release (c : Claim) : ObjSite F :=
  { s with pending := Function.update s.pending (claimKey c) none }

/-- A call is opened if its reads admit it. -/
def openCall : Except ObjError Call → ObjSite F
  | .ok call => { s with calls := s.calls ++ [call] }
  | .error _ => s

end

/-- A tenant without subjects. -/
def init (tenant : String) (now : Int) : ObjSite F where
  tenant := tenant
  tables := .empty
  calls := []
  cache := .empty
  pending := fun _ => none
  now := now

/-- The site after a step. -/
def step (s : ObjSite F) : ObjCmd F → ObjSite F
  | .attach ref capacity => s.settle (s.tables.attach ref capacity)
  | .readMove ref target verdict =>
    if PositionKind.ofName target.kind = some .obj then
      s.settle (s.tables.moveToContainer ref target.containerRef)
    else s.openCall ((s.tables.admitMove ref target verdict).map Call.move)
  | .moveToContainer ref container => s.settle (s.tables.moveToContainer ref container)
  | .readDetach ref => s.openCall ((s.tables.admitDetach ref).map fun _ => Call.detach ref)
  | .commit i =>
    match s.calls[i]? with
    | none => s
    | some call => { s with calls := s.calls.eraseIdx i }.settle (call.inTx s.tables)
  | .retire ref => s.settle (s.tables.retire ref)
  | .setCapacity ref capacity => s.settle (s.tables.setCapacity ref capacity)
  | .reserve tenant op txn participantID deadline w =>
    (s.reserve tenant op txn participantID deadline w).2
  | .validate _ => s
  | .execute c => s.settle (s.execute c)
  | .postCommit c => s.release c
  | .release c => s.release c
  | .confirmTxn txn => { s with cache := (s.cache.confirmTxn s.now s.tenant txn).2 }
  | .releaseTxn txn => { s with cache := (s.cache.releaseTxn s.now s.tenant txn).2 }
  | .tick d => { s with now := s.now + d }

end ObjSite

/-! ### What a step does to the tables -/

namespace Tables

variable {F : Type} {t : Tables F} {ref container x : String} {capacity : Capacity F}

/-- The writes of `attachInTx`. -/
def attached (t : Tables F) (ref : String) (capacity : Capacity F) (h : ¬ t.Attached ref) :
    Tables F :=
  (t.insert ref capacity h).append (journalEntry ref .attach .unassigned "" "")

variable (capacity : Capacity F)

theorem containerOf_attached (h : ¬ t.Attached ref) :
    (t.attached ref capacity h).containerOf = t.containerOf := by
  rw [attached, containerOf_append, containerOf_insert]

theorem attached_attached_iff (h : ¬ t.Attached ref) :
    (t.attached ref capacity h).Attached x ↔ t.Attached x ∨ x = ref := by
  rw [attached, attached_append, attached_insert]

theorem attached_attached_self (h : ¬ t.Attached ref) : (t.attached ref capacity h).Attached ref :=
  (attached_attached_iff capacity h).mpr (.inr rfl)

/-- An `attachAndContainInTx` is admitted. -/
@[mk_iff] structure Promotable (t : Tables F) (ref container : String) : Prop where
  ne : ref ≠ container
  fresh : ¬ t.Attached ref
  room : ∃ y ∈ t.subject container, y.HasRoom
  apart : t.cycleSearch ref container = some (.ok false)

instance : Decidable (t.Promotable ref container) :=
  decidable_of_iff _ (t.promotable_iff ref container).symm

/-- A new subject can be placed as far as the tables before it allow it. -/
theorem placeable_attached_iff (hne : ref ≠ container) (h : ¬ t.Attached ref) :
    (t.attached ref capacity h).Placeable ref container ↔ t.Promotable ref container := by
  have hsubject : (t.attached ref capacity h).subject container = t.subject container := by
    rw [attached, subject_append, subject_insert, if_neg (Ne.symm hne)]
  have hsearch : (t.attached ref capacity h).cycleSearch ref container =
      t.cycleSearch ref container := by
    rw [cycleSearch, containerOf_attached, cycleSearch]
  constructor
  · rintro ⟨hroom, hapart, -⟩
    exact ⟨hne, h, hsubject ▸ hroom, hsearch ▸ hapart⟩
  · rintro ⟨-, -, hroom, hapart⟩
    exact ⟨hsubject ▸ hroom, hsearch ▸ hapart, attached_attached_self capacity h⟩

variable (t : Tables F)

/-- `attachAndContainInTx` makes its writes if it is admitted, and otherwise fails. -/
theorem attachAndContainInTx_eq (ref container : String) (capacity : Capacity F) :
    (∃ h : t.Promotable ref container, t.attachAndContainInTx ref container capacity =
      .ok ((t.attached ref capacity h.fresh).place ref container)) ∨
    (¬ t.Promotable ref container ∧
      ∃ e, t.attachAndContainInTx ref container capacity = .error e) := by
  unfold attachAndContainInTx
  split_ifs with hne
  · exact .inr ⟨fun h => h.ne hne, _, rfl⟩
  unfold attachInTx
  by_cases h : t.Attached ref
  · rw [dif_pos h]
    exact .inr ⟨fun hp => hp.fresh h, _, rfl⟩
  · rw [dif_neg h]
    rcases moveToContainerInTx_eq (t.attached ref capacity h) ref container with
      ⟨hp, hok⟩ | ⟨hp, herror⟩
    · exact .inl ⟨(placeable_attached_iff capacity hne h).mp hp, hok⟩
    · exact .inr ⟨fun hp' => hp ((placeable_attached_iff capacity hne h).mpr hp'), herror⟩

/-- What a step can do to the tables. -/
inductive Effect (t : Tables F) where
  | none
  | attach (ref : String) (capacity : Capacity F) (h : ¬ t.Attached ref)
  | place (ref container : String) (h : t.Placeable ref container)
  | promote (ref container : String) (capacity : Capacity F) (h : t.Promotable ref container)
  | relocate (r : Relocation)
  | detach (ref : String) (h : t.Attached ref)
  | demote (ref : String) (h : t.Attached ref) (hempty : t.contentsCount ref = 0)
  | retire (ref : String) (h : t.Attached ref)
  | setCapacity (ref : String) (capacity : Capacity F)

/-- The tables afterwards. -/
def Effect.apply {t : Tables F} : t.Effect → Tables F
  | .none => t
  | .attach ref capacity h => t.attached ref capacity h
  | .place ref container _ => t.place ref container
  | .promote ref container capacity h => (t.attached ref capacity h.fresh).place ref container
  | .relocate r => t.relocateInTx r
  | .detach ref _ => t.detached ref
  | .demote ref _ _ => (t.relinquish ref).detached ref
  | .retire ref _ => t.retired ref
  | .setCapacity ref capacity => t.withCapacity ref capacity

/-- `MoveToContainer`, if it is admitted. -/
def placement (ref container : String) : t.Effect :=
  if h : ref ≠ container ∧ t.Placeable ref container then .place ref container h.2 else .none

/-- The transaction of an open call. -/
def callEffect : Call → t.Effect
  | .move r => .relocate r
  | .detach ref => if h : t.Attached ref then .detach ref h else .none

/-- `Execute` with its parameters. -/
def opEffect : OpParams F → t.Effect
  | .attachAndContain tp =>
    if h : t.Promotable tp.subjectRef tp.containerRef then
      .promote tp.subjectRef tp.containerRef tp.capacity h
    else .none
  | .detach tp =>
    if h : t.Attached tp.subjectRef ∧ t.contentsCount tp.subjectRef = 0 then
      .demote tp.subjectRef h.1 h.2
    else .none

end Tables

namespace ObjSite

variable {F : Type} (s : ObjSite F)

/-- What a command does, by what the code checks in the state before it. -/
def effect : ObjCmd F → s.tables.Effect
  | .attach ref capacity =>
    if h : ref ≠ "" ∧ ¬ s.tables.Attached ref then .attach ref capacity h.2 else .none
  | .readMove ref target _ =>
    if PositionKind.ofName target.kind = some .obj then s.tables.placement ref target.containerRef
    else .none
  | .moveToContainer ref container => s.tables.placement ref container
  | .commit i =>
    match s.calls[i]? with
    | none => .none
    | some call => s.tables.callEffect call
  | .retire ref =>
    if h : (s.tables.subject ref).any (!·.retired) ∧ s.tables.contentsCount ref = 0 then
      .retire ref (isSome_subject.mp (Option.isSome_of_any h.1))
    else .none
  | .setCapacity ref capacity =>
    if (capacity.maxWeightKg.isSome ∨ capacity.maxVolumeM3.isSome ∨ capacity.maxCount.isSome) ∧
        s.tables.Attached ref then
      .setCapacity ref capacity
    else .none
  | .execute c =>
    match s.pending (claimKey c) with
    | none => .none
    | some op => s.tables.opEffect op
  | _ => .none

theorem tables_placement (ref container : String) :
    (s.settle (s.tables.moveToContainer ref container)).tables =
      (s.tables.placement ref container).apply := by
  unfold moveToContainer placement
  by_cases hne : ref = container
  · rw [if_pos hne, dif_neg fun h => h.1 hne]
    rfl
  · rw [if_neg hne]
    rcases s.tables.moveToContainerInTx_eq ref container with ⟨hp, hok⟩ | ⟨hp, e, herror⟩
    · rw [hok, dif_pos ⟨hne, hp⟩]
      rfl
    · rw [herror, dif_neg fun h => hp h.2]
      rfl

theorem tables_openCall (r : Except ObjError Call) : (s.openCall r).tables = s.tables := by
  cases r <;> rfl

variable (tenant : String) (op : OpParams F) (txn participantID : String) (deadline : Int)
  (w : Weight)

/-- `Reserve` holds a claim for what it is given, or does nothing. -/
theorem reserve_eq : (s.reserve tenant op txn participantID deadline w).2 = s ∨
      (∀ tp, op = .attachAndContain tp → tp.subjectRef ≠ "") ∧
        ∃ cl, (s.reserve tenant op txn participantID deadline w).2 = s.hold cl op := by
  unfold reserve
  split_ifs
  · exact .inl rfl
  cases op with
  | attachAndContain tp =>
    dsimp only
    split_ifs with hempty
    · exact .inl rfl
    · exact .inl rfl
    · rcases s.tables.get tp.containerRef with e | ⟨container, p⟩
      · exact .inl rfl
      · dsimp only
        split_ifs
        · exact .inl rfl
        · refine .inr ⟨fun tp' heq => ?_, _, rfl⟩
          cases heq
          exact fun hs => hempty (.inl hs)
  | detach tp =>
    dsimp only
    split_ifs
    · exact .inl rfl
    · exact .inr ⟨nofun, _, rfl⟩

theorem tables_reserve :
    (s.reserve tenant op txn participantID deadline w).2.tables = s.tables := by
  rcases s.reserve_eq tenant op txn participantID deadline w with hsame | ⟨-, cl, hhold⟩
  · rw [hsame]
  · rw [hhold, hold]

theorem tables_retire (ref : String) :
    (s.settle (s.tables.retire ref)).tables = (s.effect (.retire ref)).apply := by
  by_cases h : (s.tables.subject ref).any (!·.retired) ∧ s.tables.contentsCount ref = 0
  · rw [show s.effect (.retire ref) = .retire ref _ from dif_pos h]
    obtain ⟨y, hy, hr⟩ := (Option.any_eq_true _ _).mp h.1
    simp only [Bool.not_eq_true'] at hr
    simp [retire, hy, hr, h.2, settle, Tables.Effect.apply]
  · rw [show s.effect (.retire ref) = .none from dif_neg h]
    unfold retire
    rcases hy : s.tables.subject ref with - | y
    · rfl
    · rcases hr : y.retired with - | -
      · have hfull : 0 < s.tables.contentsCount ref :=
          Nat.pos_of_ne_zero fun hempty => h ⟨by simp [hy, hr], hempty⟩
        simp [hr, hfull, settle, Tables.Effect.apply]
      · simp [hr, settle, Tables.Effect.apply]

theorem tables_setCapacity (ref : String) (capacity : Capacity F) :
    (s.settle (s.tables.setCapacity ref capacity)).tables =
      (s.effect (.setCapacity ref capacity)).apply := by
  unfold setCapacity effect
  obtain ⟨maxWeightKg, maxVolumeM3, maxCount⟩ := capacity
  by_cases h : s.tables.Attached ref
  all_goals
    cases maxWeightKg <;> cases maxVolumeM3 <;> cases maxCount <;>
      simp [h, settle, Tables.Effect.apply]

theorem tables_execute (c : Claim) :
    (s.settle (s.execute c)).tables = (s.effect (.execute c)).apply := by
  unfold execute
  rcases hop : s.pending (claimKey c) with - | (tp | tp)
  · rw [show s.effect (.execute c) = .none by simp only [effect, hop]]
    rfl
  · rw [show s.effect (.execute c) = s.tables.opEffect (.attachAndContain tp) by
      simp only [effect, hop]]
    change (s.settle (s.tables.attachAndContainInTx ..)).tables =
      (dite _ _ _ : s.tables.Effect).apply
    rcases s.tables.attachAndContainInTx_eq tp.subjectRef tp.containerRef tp.capacity
      with ⟨hp, hok⟩ | ⟨hp, e, herror⟩
    · rw [hok, dif_pos hp]
      rfl
    · rw [herror, dif_neg hp]
      rfl
  · rw [show s.effect (.execute c) = s.tables.opEffect (.detach tp) by simp only [effect, hop]]
    change (s.settle (s.tables.unassignAndDetachInTx ..)).tables =
      (dite _ _ _ : s.tables.Effect).apply
    unfold unassignAndDetachInTx
    by_cases hattached : s.tables.Attached tp.subjectRef
    · rw [if_neg (not_not.mpr hattached)]
      by_cases hempty : s.tables.contentsCount tp.subjectRef = 0
      · rw [if_neg (by omega), dif_pos ⟨hattached, hempty⟩]
        rfl
      · rw [if_pos (by omega), dif_neg fun h => hempty h.2]
        rfl
    · rw [if_pos hattached, dif_neg fun h => hattached h.1]
      rfl

/-- **A step** does what its effect says. -/
theorem tables_step (c : ObjCmd F) : (s.step c).tables = (s.effect c).apply := by
  cases c with
  | attach ref capacity =>
    change (s.settle (s.tables.attach ref capacity)).tables = (dite _ _ _ : s.tables.Effect).apply
    unfold attach attachInTx
    by_cases href : ref = ""
    · rw [if_pos href, dif_neg fun h => h.1 href]
      rfl
    · rw [if_neg href]
      by_cases h : s.tables.Attached ref
      · rw [dif_pos h, dif_neg fun h' => h'.2 h]
        rfl
      · rw [dif_neg h, dif_pos ⟨href, h⟩]
        rfl
  | readMove ref target verdict =>
    change (ite _ _ _ : ObjSite F).tables = (ite _ _ _ : s.tables.Effect).apply
    split_ifs
    · exact s.tables_placement ref target.containerRef
    · exact s.tables_openCall _
  | moveToContainer ref container => exact s.tables_placement ref container
  | readDetach ref => exact s.tables_openCall _
  | commit i =>
    rcases hcall : s.calls[i]? with - | (r | ref)
    · simp only [step, effect, hcall, Tables.Effect.apply]
    · simp only [step, effect, hcall]
      rfl
    · simp only [step, effect, hcall]
      change (settle _ (s.tables.detachInTx ref)).tables = (dite _ _ _ : s.tables.Effect).apply
      unfold detachInTx
      by_cases h : s.tables.Attached ref
      · rw [if_neg (not_not.mpr h), dif_pos h]
        rfl
      · rw [if_pos h, dif_neg h]
        rfl
  | retire ref => exact s.tables_retire ref
  | setCapacity ref capacity => exact s.tables_setCapacity ref capacity
  | reserve tenant op txn participantID deadline w => exact s.tables_reserve ..
  | execute c => exact s.tables_execute c
  | validate | postCommit | release | confirmTxn | releaseTxn | tick => rfl

end ObjSite

end Xolu.Obj
