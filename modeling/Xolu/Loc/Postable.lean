/-
# Where subjects may sit

A location is postable if subjects can be placed at it; the others are summaries of their
subtree.  Neither `Move` nor `Execute` looks at the flag.  So subjects sit at postable locations
only (`PostableSeats`) as long as every move that is admitted goes to one: `Admits` says which
moves are, from the rows before the transaction.
-/
import Xolu.Loc.Leaf

namespace Xolu.Loc

open Dxp Keyed Runs Tally Tables

namespace Tables

variable {F G : Type} {t t' : Tables F G} {p : MoveParams} {l : Location F}

/-- Every location that a subject is assigned to is postable. -/
def PostableSeats (t : Tables F G) : Prop :=
  ∀ a ∈ t.assignment, ∀ l ∈ t.locations, l.key = a.2 → l.postable = true
deriving Decidable

/-! ### Which moves are admitted -/

/-- The guarded updates of `moveInTx` match: the destination is `l` and has room, and so have the
fences. -/
structure Admits (t : Tables F G) (p : MoveParams) (l : Location F) : Prop where
  destination : t.locationByID p.toLocationID = some l
  room : Room t.capacity l.key
  exits : (leaveAll p.exited t.fenceCapacity).1 = .ok ()
  entries : (enterAll p.entered (leaveAll p.exited t.fenceCapacity).2).1 = .ok ()

theorem Moved.admits (h : Moved t p l t') : t.Admits p l where
  destination := h.destination
  room := by
    obtain ⟨rows, henter, -⟩ := h.capacity
    exact exists_of_enter henter
  exits := h.leaveAll_ok
  entries := h.enterAll_ok

/-- A subject can always leave its leaf, so that a move whose guards match is admitted. -/
theorem LeafOccupancy.moved_of_admits (hi : LeafOccupancy t) (h : t.Admits p l) :
    (∃ key, (moveInTx p t).1 = .ok key) ∧ Moved t p l (moveInTx p t).2 := by
  rcases htx : (moveInTx p t).1 with e | key
  · rcases hi.moveInTx_error htx with ⟨hnone, -⟩ | ⟨l', hl', ⟨hfull, -⟩ | ⟨k, hk, -⟩ | ⟨k, hk, -⟩⟩
    · rw [h.destination] at hnone
      cases hnone
    · cases h.destination.symm.trans hl'
      exact absurd h.room hfull
    · rw [h.exits] at hk
      cases hk
    · rw [h.entries] at hk
      cases hk
  · obtain ⟨l', hmoved⟩ := moved_of_moveInTx htx
    cases h.destination.symm.trans hmoved.destination
    exact ⟨⟨key, rfl⟩, hmoved⟩

/-- The same for `Move`, with the fences that it crosses. -/
theorem LeafOccupancy.moved_of_admits_withDelta (hi : LeafOccupancy t) {o : MapOrder}
    {p' : MoveParams} (hs : p.subjectRef ≠ "") (hp : t.withDelta o p = .ok p')
    (h : t.Admits p' l) : Moved t p' l (t.move o p).2 := by
  rcases hm : (t.move o p).1 with e | u
  · rcases (move_spec hm).2 with ⟨hs', -⟩ | ⟨hnone, -⟩ | ⟨p'', hp'', htx⟩
    · exact absurd hs' hs
    · rw [← (withDelta_spec hp).1.2, h.destination] at hnone
      cases hnone
    · cases hp.symm.trans hp''
      obtain ⟨⟨key, hok⟩, -⟩ := hi.moved_of_admits h
      rw [htx] at hok
      cases hok
  · obtain ⟨-, p'', l', hp'', hmoved⟩ := move_spec hm
    cases hp.symm.trans hp''
    cases h.destination.symm.trans hmoved.destination
    exact hmoved

/-! ### What a command does to the flag -/

/-- No location that was there gets another flag, and a new one gets a new key. -/
def KeepsPostable (t t' : Tables F G) : Prop :=
  ∀ l' ∈ t'.locations, (∃ l ∈ t.locations, l.key = l'.key ∧ l.postable = l'.postable) ∨
    l'.key = t.nextLocationKey

theorem keepsPostable_of_locations (h : t'.locations = t.locations) : KeepsPostable t t' :=
  fun l' hl' => .inl ⟨l', h ▸ hl', rfl, rfl⟩

theorem keepsPostable_defLocation (d : LocationDef F) : KeepsPostable t (t.defLocation d).2 := by
  unfold defLocation
  split_ifs
  · exact keepsPostable_of_locations rfl
  · exact keepsPostable_of_locations rfl
  · exact keepsPostable_of_locations rfl
  · intro l' hl'
    rcases List.mem_append.mp hl' with hl' | hl'
    · exact .inl ⟨l', hl', rfl, rfl⟩
    · rw [List.mem_singleton.mp hl']
      exact .inr rfl
  · exact keepsPostable_of_locations rfl
  · exact keepsPostable_of_locations rfl

theorem keepsPostable_patch [BEq F] (id : String) (p : PatchParams F) :
    KeepsPostable t (t.patch id p).2 := by
  by_cases h : ∃ l, t.Patchable id p l
  · obtain ⟨l, hl⟩ := h
    intro l' hl'
    rw [(patch_of_patchable hl).2] at hl'
    obtain ⟨l₀, hl₀, rfl⟩ := List.mem_map.mp hl'
    refine .inl ⟨l₀, hl₀, (relabel_keeps ..).1.symm, ?_⟩
    unfold relabel
    split <;> rfl
  · rw [patch_of_not_patchable (not_exists.mp h)]
    exact keepsPostable_of_locations rfl

/-- Subjects that stay where they are sit as before. -/
theorem PostableSeats.of_assignment (hi : LeafOccupancy t) (hseats : t.PostableSeats)
    (hkeeps : KeepsPostable t t') (h : t'.assignment = t.assignment) : t'.PostableSeats := by
  intro a ha l' hl' hkey
  rw [h] at ha
  rcases hkeeps l' hl' with ⟨l, hl, hkey', hpostable⟩ | hnew
  · exact hpostable ▸ hseats a ha l hl (hkey'.trans hkey)
  · -- nobody sits at a location that was not there
    exact absurd (hkey.symm.trans hnew) (hi.lt_nextLocationKey ha).ne

/-- After a move subjects sit at postable locations if and only if its destination is one. -/
theorem Moved.postableSeats_iff (h : Moved t p l t') (hseats : t.PostableSeats) :
    t'.PostableSeats ↔ l.postable = true := by
  have hl := (mem_of_locationByID h.destination).1
  unfold PostableSeats
  rw [h.locations, h.assignment]
  constructor
  · intro hafter
    exact hafter _ (mem_upsert.mpr (.inl rfl)) l hl rfl
  · intro hpostable a ha l' hl' hkey
    rcases mem_upsert.mp ha with rfl | ⟨ha, -⟩
    · rwa [t.locationKeys.eq_of_key hl' hl hkey]
    · exact hseats a ha l' hl' hkey

end Tables

namespace LocSite

variable {F G : Type} [BEq F] [LE F] [DecidableLE F] [Geometry F G]

/-- A move that is admitted, by itself or for a transaction, goes to a postable location. -/
def PostableDestination (s : LocSite F G) : LocCmd F G → Prop
  | .move o p => p.subjectRef ≠ "" → ∀ p', s.tables.withDelta o p = .ok p' →
      ∀ l, s.tables.Admits p' l → l.postable = true
  | .execute c => ∀ tp ∈ s.pending (claimKey c), ∀ l, s.tables.Admits tp.move l → l.postable = true
  | _ => True

/-- Subjects sit at postable locations after the step. -/
def SeatsPostable (s : LocSite F G) (c : LocCmd F G) : Prop := (s.step c).tables.PostableSeats
deriving Decidable

theorem keepsPostable_step (s : LocSite F G) (c : LocCmd F G) :
    Tables.KeepsPostable s.tables (s.step c).tables := by
  by_cases hdef : ∃ d, c = .defLocation d
  · obtain ⟨d, rfl⟩ := hdef
    exact keepsPostable_defLocation d
  by_cases hpatch : ∃ id p, c = .patch id p
  · obtain ⟨id, p, rfl⟩ := hpatch
    exact keepsPostable_patch id p
  apply keepsPostable_of_locations
  exact s.locations_step (fun d h => hdef ⟨d, h⟩) fun id p h => hpatch ⟨id, p, h⟩

section

variable {s : LocSite F G} (hi : s.tables.LeafOccupancy) (hseats : s.tables.PostableSeats)

include hi hseats

theorem seatsPostable_move_iff {o : MapOrder} {p : MoveParams} :
    s.SeatsPostable (.move o p) ↔ s.PostableDestination (.move o p) := by
  change (s.tables.move o p).2.PostableSeats ↔ _
  constructor
  · intro hafter hs p' hp l hadmits
    exact ((hi.moved_of_admits_withDelta hs hp hadmits).postableSeats_iff hseats).mp hafter
  · intro hdest
    rcases h : (s.tables.move o p).1 with e | u
    · rwa [(move_spec h).1]
    · obtain ⟨hs, p', l, hp, hmoved⟩ := move_spec h
      exact (hmoved.postableSeats_iff hseats).mpr (hdest hs p' hp l hmoved.admits)

theorem seatsPostable_execute_iff {c : Dxp.Claim} :
    s.SeatsPostable (.execute c) ↔ s.PostableDestination (.execute c) := by
  unfold SeatsPostable PostableDestination
  rcases hp : s.pending (claimKey c) with - | tp
  · have hsame : (s.step (.execute c)).tables = s.tables := by
      change (s.execute c).2.tables = _
      simp only [execute, hp]
    rw [hsame]
    exact iff_of_true hseats fun tp h => absurd (hp.symm.trans h) (Option.some_ne_none tp).symm
  · rw [execute_tables hp]
    constructor
    · intro hafter tp' htp' l hadmits
      cases hp.symm.trans htp'
      obtain ⟨⟨key, hok⟩, hmoved⟩ := hi.moved_of_admits hadmits
      rw [atomically_ok ((fst_atomically _ _).trans hok)] at hmoved
      exact (hmoved.postableSeats_iff hseats).mp hafter
    · intro hdest
      refine atomically_rule hseats fun key hkey => ?_
      obtain ⟨l, hmoved⟩ := moved_of_moveInTx hkey
      exact (hmoved.postableSeats_iff hseats).mpr (hdest tp hp l hmoved.admits)

/-- A command that moves nobody. -/
theorem seatsPostable_of_assignment {c : LocCmd F G}
    (h : (s.step c).tables.assignment = s.tables.assignment) : s.SeatsPostable c :=
  hseats.of_assignment hi (s.keepsPostable_step c) h

/-- Subjects sit at postable locations after a step if and only if nobody is moved elsewhere. -/
theorem seatsPostable_iff (c : LocCmd F G) : s.SeatsPostable c ↔ s.PostableDestination c := by
  have hchange := (s.change_step c).1
  generalize ht : (s.step c).tables = t' at hchange
  have hstill : t'.assignment = s.tables.assignment → s.SeatsPostable c := fun h =>
    seatsPostable_of_assignment hi hseats (ht ▸ h)
  cases hchange with
  | moved hs hp h => exact seatsPostable_move_iff hi hseats
  | executed hp h => exact seatsPostable_execute_iff hi hseats
  | location | fence => exact iff_of_true (hstill rfl) trivial
  | reported hs hnew h => exact iff_of_true (hstill h.assignment) trivial
  | upkeep h =>
    cases c with
    | move o p => exact seatsPostable_move_iff hi hseats
    | execute c => exact seatsPostable_execute_iff hi hseats
    | _ => exact iff_of_true (hstill h.assignment) trivial

end

/-- **Postable locations.**  In a run of any commands, subjects sit at postable locations only after
every step if and only if every move that is admitted, by itself or for a transaction, goes to a
postable location. -/
theorem seats_postable_iff (tenant : String) (now : Int) (cmds : List (LocCmd F G)) :
    Along step SeatsPostable (init tenant now) cmds ↔
      Along step PostableDestination (init tenant now) cmds := by
  refine along_iff_of_invariant
    (I := fun s : LocSite F G => s.tables.LeafOccupancy ∧ s.tables.PostableSeats)
    (fun s c hi _ hdest => ⟨leafOccupancy_step s c hi.1, (seatsPostable_iff hi.1 hi.2 c).mpr hdest⟩)
    (fun s c hi _ => seatsPostable_iff hi.1 hi.2 c) ?_ .trivial
  exact ⟨leafOccupancy_empty, fun _ ha => nomatch ha⟩

/-- A building, which is a summary of its rooms, and a subject that is moved to it. -/
def moveToSummary : List (LocCmd Int (Box Int)) :=
  [.defLocation ⟨"building", none, "", false, ⟨0, 0, 0, 0, some ⟨0, 0, 0, 0⟩⟩⟩,
    .move .asCollected ⟨"s", "building", none, none⟩]

/-- The move is admitted, and so is the one of a transaction. -/
theorem summary_takes_subjects :
    (run step (init "t" 0) moveToSummary).tables.assignment = [("s", 1)] ∧
      ¬ Along step SeatsPostable (init "t" 0) moveToSummary ∧
      ¬ Along step SeatsPostable (init "t" 0) (moveToSummary.take 1 ++
        [.reserve "t" ⟨"s", "building"⟩ "x" "p" 1 .pessimistic,
          .execute ⟨"x", "loc", "t", "", .pessimistic, 1, 1, "p"⟩]) := by
  decide +kernel

end LocSite

end Xolu.Loc
