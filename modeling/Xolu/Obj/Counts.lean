/-
# The counts of the containers

Each subject counts its contents.  A placement charges the new container and relinquishes the old
one, and so does a demotion; `Move` to a leaf or to nowhere clears the reference and relinquishes
nothing, and so does `Detach` of a subject that a placement has reached between its reads and its
transaction.  A subject that is attached anew counts nothing, whatever references to it are left.

`counts_iff` says that nothing else breaks the counts, for all interleavings of calls.
-/
import Xolu.Obj.Forest

namespace Xolu.Obj

open Graphalgo Pointers Runs

namespace Tables

variable {F : Type} {t : Tables F} {ref container x : String}

/-- Every attached subject counts the subjects whose container reference names it. -/
def Counted (t : Tables F) : Prop := ∀ y ∈ t.subjects, y.curCount = t.contentsCount y.ref
deriving Decidable

/-- The subject, if it is attached, counts its contents. -/
def CountedAt (t : Tables F) (x : String) : Prop := ∀ n ∈ t.countOf x, n = (t.contentsCount x : Int)

theorem counted_iff : t.Counted ↔ ∀ x, t.CountedAt x := by
  constructor
  · intro h x n hn
    obtain ⟨y, hy, rfl⟩ := Option.map_eq_some_iff.mp hn
    obtain ⟨hmem, rfl⟩ := mem_of_subject hy
    exact h y hmem
  · intro h y hy
    refine h y.ref y.curCount ?_
    rw [countOf, subject_of_mem hy]
    rfl

theorem CountedAt.eq {n : Int} (h : t.CountedAt x) (hn : t.countOf x = some n) :
    n = t.contentsCount x := h n hn

/-- A placement moves the count with the contents. -/
theorem countedAt_place (hattached : t.Attached ref) :
    (t.place ref container).CountedAt x ↔ t.CountedAt x := by
  unfold CountedAt
  rw [countOf_place]
  rcases t.countOf x with - | n
  · simp
  · have hcontents := contentsCount_place hattached container x
    simp only [Option.map_some, Option.mem_def, Option.some.injEq, forall_eq']
    by_cases hc : x = container
    · subst hc
      split_ifs at hcontents ⊢ <;> omega
    · rw [if_neg (Ne.symm hc)] at hcontents
      split_ifs at hcontents ⊢ <;> omega

/-- The counts after a subject is attached. -/
theorem counted_attached_iff (h : t.Counted) (capacity : Capacity F) (hnew : ¬ t.Attached ref) :
    (t.attached ref capacity hnew).Counted ↔ t.contentsCount ref = 0 := by
  rw [counted_iff] at h ⊢
  have hat : ∀ x, (t.attached ref capacity hnew).CountedAt x ↔
      (x = ref → t.contentsCount ref = 0) := by
    intro x
    unfold CountedAt attached
    rw [countOf_append, countOf_insert, contentsCount_append, contentsCount_insert]
    split_ifs with hx
    · subst hx
      simp only [Option.mem_def, Option.some.injEq, forall_eq', forall_const]
      omega
    · exact iff_of_true (h x) fun heq => absurd heq hx
  simp only [hat, forall_eq]

/-- The counts after a reference is dropped and nothing is relinquished. -/
theorem counted_drop_iff {t' : Tables F} (h : t.Counted)
    (hcontents : ∀ x, t'.contentsCount x + (if t.containerOf ref = some x then 1 else 0) =
      t.contentsCount x)
    (hcount : ∀ x, t'.countOf x = t.countOf x ∨ t'.countOf x = none ∧ t.containerOf ref ≠ some x) :
    t'.Counted ↔ ∀ c ∈ t.containerOf ref, ¬ t.Attached c := by
  rw [counted_iff] at h ⊢
  constructor
  · -- an attached container would count one more than is left in it
    intro h' c hc hattached
    obtain ⟨n, hn⟩ := Option.isSome_iff_exists.mp (isSome_countOf.mpr hattached)
    have hsame : t'.countOf c = t.countOf c := (hcount c).resolve_right fun hout => hout.2 hc
    have hbefore := (h c).eq hn
    have hafter := (h' c).eq (hsame.trans hn)
    have hone := hcontents c
    rw [if_pos (Option.mem_def.mp hc)] at hone
    omega
  · intro hdangling x n hn
    rcases hcount x with hsame | ⟨hnone, -⟩
    · rw [hsame] at hn
      have hattached : t.Attached x := isSome_countOf.mp (Option.isSome_of_mem hn)
      have hother : t.containerOf ref ≠ some x := fun hc => hdangling x hc hattached
      have hall := hcontents x
      rw [if_neg hother, Nat.add_zero] at hall
      rw [hall]
      exact (h x).eq hn
    · rw [hnone] at hn
      cases hn

theorem counted_demoted (h : t.Counted) : ((t.relinquish ref).detached ref).Counted := by
  rw [counted_iff] at h ⊢
  intro x n hn
  rw [countOf_detached, countOf_relinquish] at hn
  have hcontents := contentsCount_detached (t.relinquish ref) ref x
  rw [contentsCount_relinquish, containerOf_relinquish] at hcontents
  by_cases hx : x = ref
  · rw [if_pos hx] at hn
    cases hn
  · rw [if_neg hx] at hn
    obtain ⟨m, hm, rfl⟩ := Option.map_eq_some_iff.mp hn
    have hbefore := (h x).eq hm
    split_ifs at hcontents ⊢ <;> omega

/-- An update that leaves the counts. -/
theorem counted_alter {f : Subject F → Subject F} (hf : ∀ y, (f y).ref = y.ref)
    (hcount : ∀ y, (f y).curCount = y.curCount) (h : t.Counted) : (t.alter ref f hf).Counted := by
  intro y hy
  obtain ⟨z, hz, rfl⟩ := List.mem_map.mp hy
  split
  · rw [hf, hcount]
    exact h z hz
  · exact h z hz

/-! ### The condition -/

/-- No reference to a new subject is left, and a subject that leaves without relinquishing its
container leaves one that is not attached. -/
def Effect.KeepsCounts : t.Effect → Prop
  | .attach ref _ _ => t.contentsCount ref = 0
  | .promote ref _ _ _ => t.contentsCount ref = 0
  | .relocate r => ∀ c ∈ t.containerOf r.subjectRef, ¬ t.Attached c
  | .detach ref _ => ∀ c ∈ t.containerOf ref, ¬ t.Attached c
  | _ => True

instance : (e : t.Effect) → Decidable e.KeepsCounts
  | .attach .. | .promote .. => inferInstanceAs (Decidable (_ = _))
  | .relocate _ | .detach .. => inferInstanceAs (Decidable (∀ _ ∈ _, ¬ _))
  | .none | .place .. | .demote .. | .retire .. | .setCapacity .. => .isTrue trivial

/-- Nothing is directly inside itself. -/
theorem containerOf_ne_self (h : Acyclic t.containerOf) : t.containerOf ref ≠ some ref :=
  fun hself => h ref (.single hself)

theorem counted_apply_iff (hforest : Acyclic t.containerOf) (h : t.Counted) (e : t.Effect) :
    e.apply.Counted ↔ e.KeepsCounts := by
  cases e with
  | none => exact iff_of_true h trivial
  | attach ref capacity hnew => exact counted_attached_iff h capacity hnew
  | place ref container hp =>
    refine iff_of_true (counted_iff.mpr fun x => ?_) trivial
    exact (countedAt_place hp.attached).mpr (counted_iff.mp h x)
  | promote ref container capacity hp =>
    -- the placement that follows keeps what the attachment leaves
    refine Iff.trans ?_ (counted_attached_iff h capacity hp.fresh)
    rw [counted_iff, counted_iff]
    exact forall_congr' fun x => countedAt_place (attached_attached_self capacity hp.fresh)
  | relocate r => exact counted_drop_iff h contentsCount_relocateInTx fun x => .inl rfl
  | detach ref hattached =>
    refine counted_drop_iff h (contentsCount_detached t ref) fun x => ?_
    change (t.detached ref).countOf x = _ ∨ (t.detached ref).countOf x = _ ∧ _
    rw [countOf_detached]
    split_ifs with hx
    · -- the count of the subject goes with its row, and it was not in itself
      exact .inr ⟨rfl, hx ▸ containerOf_ne_self hforest⟩
    · exact .inl rfl
  | demote ref hattached hempty => exact iff_of_true (counted_demoted h) trivial
  | retire ref hattached =>
    refine iff_of_true ?_ trivial
    exact counted_alter (f := fun y => { y with retired := true }) (fun _ => rfl) (fun _ => rfl) h
  | setCapacity ref capacity =>
    refine iff_of_true ?_ trivial
    exact counted_alter (f := fun y => { y with capacity := capacity }) (fun _ => rfl)
      (fun _ => rfl) h

/-! ### Ceilings -/

/-- The container that something is put in. -/
def Effect.destination : t.Effect → Option String
  | .place _ container _ => some container
  | .promote _ container _ _ => some container
  | _ => Option.none

/-- No more subjects name a container than its ceiling says. -/
def WithinCeiling (t : Tables F) (container : String) : Prop :=
  ∀ y ∈ t.subject container, ∀ m ∈ y.capacity.maxCount, (t.contentsCount container : Int) ≤ m
deriving Decidable

/-- A container that has just been charged counts no more than its ceiling. -/
theorem curCount_place_le {y : Subject F} (hroom : ∃ y ∈ t.subject container, y.HasRoom)
    (hy : (t.place ref container).subject container = some y) :
    ∀ m ∈ y.capacity.maxCount, y.curCount ≤ m := by
  obtain ⟨z, hz, hroom⟩ := hroom
  rw [subject_place, Option.mem_def.mp hz, Option.map_some, Option.some.injEq] at hy
  subst hy
  intro m hm
  have hle := hroom m hm
  dsimp only
  split_ifs <;> omega

/-- Right after something is put in a container, the container has no more than its ceiling. -/
theorem withinCeiling_of_counted (e : t.Effect) (h : e.apply.Counted) :
    ∀ container ∈ e.destination, e.apply.WithinCeiling container := by
  intro container hc y hy m hm
  have hcount : y.curCount = e.apply.contentsCount container := by
    obtain ⟨hmem, href⟩ := mem_of_subject (Option.mem_def.mp hy)
    rw [h y hmem, href]
  rw [← hcount]
  cases e with
  | place ref container hp =>
    cases hc
    exact curCount_place_le hp.room hy m hm
  | promote ref container capacity hp =>
    cases hc
    exact curCount_place_le ((placeable_attached_iff capacity hp.ne hp.fresh).mpr hp).room hy m hm
  | _ => cases hc

end Tables

namespace ObjSite

variable {F : Type}

/-- After a step every attached subject counts the subjects that name it, and if the step puts
something in a container with a ceiling, no more name it than the ceiling says. -/
def Counts (s : ObjSite F) (c : ObjCmd F) : Prop :=
  (s.step c).tables.Counted ∧
    ∀ container ∈ (s.effect c).destination, (s.step c).tables.WithinCeiling container
deriving Decidable

/-- What a step needs for the counts. -/
def KeepsCounts (s : ObjSite F) (c : ObjCmd F) : Prop := (s.effect c).KeepsCounts

instance (s : ObjSite F) (c : ObjCmd F) : Decidable (s.KeepsCounts c) :=
  inferInstanceAs (Decidable (Tables.Effect.KeepsCounts _))

theorem counts_iff_keepsCounts {s : ObjSite F} (hforest : Acyclic s.tables.containerOf)
    (h : s.tables.Counted) (c : ObjCmd F) : s.Counts c ↔ s.KeepsCounts c := by
  unfold Counts KeepsCounts
  rw [s.tables_step c, ← Tables.counted_apply_iff hforest h]
  exact and_iff_left_of_imp (Tables.withinCeiling_of_counted _)

/-- **Container counts.**  In a run of any commands, the counts are right after every step if and
only if every subject that is attached, alone or for a transaction, is named by no reference that
is left, and every subject that is moved to a leaf or to nowhere, or detached, is at that time in
no attached container. -/
theorem counts_iff (tenant : String) (now : Int) (cmds : List (ObjCmd F)) :
    Along step Counts (init tenant now) cmds ↔ Along step KeepsCounts (init tenant now) cmds := by
  refine along_iff_of_invariant
    (I := fun s : ObjSite F => Acyclic s.tables.containerOf ∧ s.tables.Counted)
    (fun s c hi _ hkeeps => ⟨acyclic_step s c hi.1, ?_⟩)
    (fun s c hi _ => counts_iff_keepsCounts hi.1 hi.2 c) ⟨Tables.acyclic_empty, nofun⟩ .trivial
  exact ((counts_iff_keepsCounts hi.1 hi.2 c).mpr hkeeps).1

/-- `a` is moved to nowhere. -/
def moveOut : List (ObjCmd Nat) := [.readMove "a" ⟨"", "", ""⟩ (.ok ()), .commit 0]

/-- `c` is detached and attached again. -/
def reattach : List (ObjCmd Nat) := [.readDetach "c", .commit 0, .attach "c" unlimited]

/-- `a` is moved to nowhere, and its container still counts it.  Or the container is detached, which
is admitted, and attached again: it counts nothing, and `a` is still in it. -/
theorem counts_drift :
    ((run step (init "t" 0) (putIn ++ moveOut)).tables.subject "c").map Subject.curCount = some 1 ∧
    ¬ Along step Counts (init "t" 0) (putIn ++ moveOut) ∧
    ¬ Along step Counts (init "t" 0) (putIn ++ reattach) := by
  decide +kernel

end ObjSite

end Xolu.Obj
