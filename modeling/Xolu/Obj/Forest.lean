/-
# Containment is a forest

The guard of a placement searches, in the transaction that writes it, from the container for the
subject.  The search is bounded and answers "cycle" when it is cut short, so an admitted placement
turns the reference of a subject to a container from which the subject cannot be reached, however
deep the containment is.  All other writes drop a reference or leave them alone.

References of a detached container stay in the rows that name it, and are live again once it is
attached again; they are part of `containerOf` throughout.
-/
import Xolu.Obj.Adapter
import Xolu.Lib.Pointers

namespace Xolu.Obj

open Graphalgo Pointers Runs

namespace Tables

variable {F : Type} {t : Tables F} {ref container : String}

/-- The guard: the container does not lead back to the subject. -/
theorem not_reaches_of_apart (h : t.cycleSearch ref container = some (.ok false)) :
    ¬ Reaches t.containerOf container ref := by
  have hsearch := not_reaches_of_wouldCreateCycle h
  simp only [Graphalgo.Reaches, Option.mem_toList] at hsearch
  exact hsearch

theorem acyclic_empty : Acyclic (empty : Tables F).containerOf := acyclic_none

theorem acyclic_place (h : Acyclic t.containerOf) (hp : t.Placeable ref container) :
    Acyclic (t.place ref container).containerOf := by
  rw [containerOf_place hp.attached]
  exact h.redirect (not_reaches_of_apart hp.apart)

/-- A reference that is dropped makes no cycle. -/
theorem acyclic_drop (h : Acyclic t.containerOf) :
    Acyclic (Function.update t.containerOf ref none) := by
  refine h.mono fun a b hlink => ?_
  by_cases ha : a = ref
  · rw [ha, Function.update_self] at hlink
    cases hlink
  · rwa [Function.update_of_ne ha] at hlink

theorem acyclic_apply (e : t.Effect) (h : Acyclic t.containerOf) : Acyclic e.apply.containerOf := by
  cases e with
  | attach ref capacity hnew =>
    change Acyclic (t.attached ref capacity hnew).containerOf
    rwa [containerOf_attached]
  | place ref container hp => exact acyclic_place h hp
  | promote ref container capacity hp =>
    refine acyclic_place ?_ ((placeable_attached_iff capacity hp.ne hp.fresh).mpr hp)
    rwa [containerOf_attached]
  | relocate r =>
    change Acyclic (t.relocateInTx r).containerOf
    rw [containerOf_relocateInTx]
    exact acyclic_drop h
  | detach ref hattached =>
    change Acyclic (t.detached ref).containerOf
    rw [containerOf_detached]
    exact acyclic_drop h
  | demote ref hattached hempty =>
    change Acyclic ((t.relinquish ref).detached ref).containerOf
    rw [containerOf_detached, containerOf_relinquish]
    exact acyclic_drop h
  | none | retire | setCapacity => exact h

end Tables

namespace ObjSite

variable {F : Type}

theorem acyclic_step (s : ObjSite F) (c : ObjCmd F) (h : Acyclic s.tables.containerOf) :
    Acyclic (s.step c).tables.containerOf := by
  rw [s.tables_step c]
  exact Tables.acyclic_apply _ h

/-- **Containment is a forest.**  After any interleaving of calls, with their reads and their
transactions as separate steps, and of dxp executions, no subject is inside itself, directly or
through any chain of container references. -/
theorem containment_acyclic (tenant : String) (now : Int) (cmds : List (ObjCmd F)) :
    Acyclic (run step (init tenant now) cmds).tables.containerOf :=
  invariant_run (I := fun s : ObjSite F => Acyclic s.tables.containerOf) acyclic_step
    Tables.acyclic_empty cmds

/-- No ceilings. -/
def unlimited : Capacity Nat := ⟨none, none, none⟩

/-- A subject that is attached and put in another. -/
def putIn : List (ObjCmd Nat) :=
  [.attach "a" unlimited, .attach "c" unlimited, .moveToContainer "a" "c"]

end ObjSite

end Xolu.Obj
