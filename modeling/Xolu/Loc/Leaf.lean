/-
# The occupancy of locations

A move counts the destination up and the leaf before down, and writes the assignment and the
journal in the same transaction.  So a location counts the subjects that are assigned to it,
and a subject is assigned to the destination of its latest move (`LeafOccupancy`), whatever
commands are run.
-/
import Xolu.Loc.Adapter
import Xolu.Lib.Run

namespace Xolu.Loc

open Keyed Runs Tally Option

/-- The destination of the latest move of a subject. -/
def lastMove {F : Type} (journal : List (JournalRow F)) (subject : String) : Option Nat :=
  (journal.reverse.find? fun r => decide (r.kind = .move ∧ r.subjectRef = subject)).bind
    JournalRow.toLocationKey

theorem lastMove_append {F : Type} (journal : List (JournalRow F)) (row : JournalRow F)
    (subject : String) : lastMove (journal ++ [row]) subject =
      if row.kind = .move ∧ row.subjectRef = subject then row.toLocationKey
      else lastMove journal subject := by
  unfold lastMove
  rw [List.reverse_append, List.reverse_singleton, List.singleton_append]
  split_ifs with h
  · rw [List.find?_cons_of_pos (by simpa using h), bind_some]
  · rw [List.find?_cons_of_neg (by simpa using h)]

theorem lastMove_append_of_forall {F : Type} {journal rows : List (JournalRow F)}
    (h : ∀ r ∈ rows, r.kind ≠ .move) (subject : String) :
    lastMove (journal ++ rows) subject = lastMove journal subject := by
  induction rows generalizing journal with
  | nil => rw [List.append_nil]
  | cons r rows ih =>
    rw [List.forall_mem_cons] at h
    rw [List.append_cons, ih h.2, lastMove_append, if_neg fun hr => h.1 hr.1]

namespace Tables

variable {F G : Type} {t t' : Tables F G} {p : MoveParams} {l : Location F}

/-- The number of subjects assigned to locations of a kind. -/
def assignedTo (t : Tables F G) (q : Nat → Bool) : Nat := t.assignment.countP fun a => q a.2

/-! ### A move -/

section

variable (h : Moved t p l t')

include h

/-- The subject is counted at its destination and no longer where it was. -/
theorem Moved.assignedTo (q : Nat → Bool) :
    t'.assignedTo q + (if (t.assigned p.subjectRef).any q then 1 else 0) =
      t.assignedTo q + if q l.key then 1 else 0 := by
  unfold Tables.assignedTo assigned
  rw [h.assignment, any_map]
  exact countP_upsert (fun a => q a.2) t.assignmentKeys

theorem Moved.assigned (subject : String) :
    t'.assigned subject = if p.subjectRef = subject then some l.key else t.assigned subject := by
  unfold Tables.assigned
  rw [h.assignment, find?_upsert]
  split_ifs <;> rfl

/-- The counters of the locations after a move. -/
theorem Moved.countOf_capacity (k : Nat) :
    countOf t'.capacity k + (if (t.assigned p.subjectRef).any (· == k) then 1 else 0) =
      countOf t.capacity k + if l.key == k then 1 else 0 := by
  obtain ⟨rows, henter, hexit⟩ := h.capacity
  have hrows := countOf_enter henter k
  rw [beq_eq_decide]
  simp only [decide_eq_true_eq]
  rw [if_congr (eq_comm : l.key = k ↔ k = l.key) rfl rfl, ← hrows]
  rcases hfrom : t.assigned p.subjectRef with - | from'
  · rw [hfrom] at hexit
    cases hexit
    rfl
  · rw [hfrom] at hexit
    have hleave := countOf_leave hexit k
    rw [any_some, ← hleave]
    refine congrArg (countOf t'.capacity k + ·) (if_congr ?_ rfl rfl)
    rw [beq_iff_eq, eq_comm]

theorem Moved.capacity_keys : t'.capacity.map Counter.key = t.capacity.map Counter.key := by
  obtain ⟨rows, henter, hexit⟩ := h.capacity
  rcases hfrom : t.assigned p.subjectRef with - | from'
  · rw [hfrom] at hexit
    cases hexit
    exact keys_adjust henter
  · rw [hfrom, exitCounter] at hexit
    exact (keys_adjust hexit).trans (keys_adjust henter)

/-- The destination is not over its ceiling afterwards. -/
theorem Moved.le_ceiling :
    ∃ c, find t'.capacity l.key = some c ∧ ∀ m ∈ c.ceiling, (c.count : Int) ≤ m := by
  obtain ⟨rows, henter, hexit⟩ := h.capacity
  obtain ⟨c, hc, hroom⟩ := exists_of_enter henter
  have hrows := find_adjust henter l.key
  rw [hc, map_some, if_pos rfl] at hrows
  rcases hfrom : t.assigned p.subjectRef with - | from'
  · rw [hfrom] at hexit
    cases hexit
    exact ⟨_, hrows, hroom⟩
  · rw [hfrom, exitCounter] at hexit
    have hfind := find_adjust hexit l.key
    rw [hrows, map_some] at hfind
    refine ⟨_, hfind, fun m hm => ?_⟩
    -- the leaf before may be the destination itself
    split_ifs at hm ⊢
    · have hle := hroom m hm
      dsimp only
      omega
    · exact hroom m hm

end

/-! ### The invariant -/

/-- Locations count their subjects, and the journal knows where each is. -/
structure LeafOccupancy (t : Tables F G) : Prop where
  rows : ∀ l ∈ t.locations, l.key ∈ t.capacity.map Counter.key
  counts : ∀ k, countOf t.capacity k = t.assignedTo (· == k)
  latest : ∀ subject, t.assigned subject = lastMove t.journal subject
  moves : ∀ r ∈ t.journal, r.kind = .move → r.toLocationKey.isSome
  seats : ∀ a ∈ t.assignment, ∃ l ∈ t.locations, l.key = a.2

theorem leafOccupancy_empty : LeafOccupancy (empty : Tables F G) where
  rows _ hl := nomatch hl
  counts _ := rfl
  latest _ := rfl
  moves _ hr := nomatch hr
  seats _ ha := nomatch ha

theorem Upkeep.locationKeys (h : Upkeep t t') :
    t'.locations.map Location.key = t.locations.map Location.key := by
  have hkeys := congrArg (List.map Prod.fst) h.tree
  rwa [List.map_map, List.map_map] at hkeys

section

variable (hi : LeafOccupancy t)

include hi

theorem LeafOccupancy.upkeep (h : Upkeep t t') : LeafOccupancy t' where
  rows l hl := by
    have hmem := List.mem_map_of_mem hl (f := Location.key)
    rw [h.locationKeys] at hmem
    obtain ⟨l', hl', hkey⟩ := List.mem_map.mp hmem
    rw [h.capacityKeys, ← hkey]
    exact hi.rows l' hl'
  counts k := by
    rw [h.capacity, hi.counts]
    unfold assignedTo
    rw [h.assignment]
  latest subject := by
    obtain ⟨rows, hjournal, hidle⟩ := h.journal
    rw [hjournal, lastMove_append_of_forall fun r hr => by rw [(hidle r hr).1]; decide,
      ← hi.latest]
    unfold assigned
    rw [h.assignment]
  moves r hr hkind := by
    obtain ⟨rows, hjournal, hidle⟩ := h.journal
    rw [hjournal] at hr
    rcases List.mem_append.mp hr with hr | hr
    · exact hi.moves r hr hkind
    · rw [(hidle r hr).1] at hkind
      cases hkind
  seats a ha := by
    rw [h.assignment] at ha
    obtain ⟨l, hl, hkey⟩ := hi.seats a ha
    have hmem := List.mem_map_of_mem hl (f := Location.key)
    rw [← h.locationKeys] at hmem
    obtain ⟨l', hl', hkey'⟩ := List.mem_map.mp hmem
    exact ⟨l', hl', hkey'.trans hkey⟩

theorem LeafOccupancy.insertLocation {d : LocationDef F} {hid hcap} :
    LeafOccupancy (t.insertLocation d hid hcap) where
  rows l hl := by
    change l.key ∈ (t.capacity ++ [_]).map Counter.key
    rw [List.map_append, List.mem_append]
    rcases List.mem_append.mp hl with hl | hl
    · exact .inl (hi.rows l hl)
    · rw [List.mem_singleton.mp hl]
      exact .inr (List.mem_singleton.mpr rfl)
  counts k := (countOf_new _ _ k).trans (hi.counts k)
  latest := hi.latest
  moves := hi.moves
  seats a ha := by
    obtain ⟨l, hl, hkey⟩ := hi.seats a ha
    exact ⟨l, List.mem_append_left _ hl, hkey⟩

theorem LeafOccupancy.insertFence {id : String} {aligned : Option String}
    {hid hcap} : LeafOccupancy (t.insertFence id aligned hid hcap) :=
  ⟨hi.rows, hi.counts, hi.latest, hi.moves, hi.seats⟩

theorem LeafOccupancy.moved (h : Moved t p l t') : LeafOccupancy t' where
  rows l' hl' := by
    rw [h.capacity_keys]
    exact hi.rows l' (h.locations ▸ hl')
  counts k := by
    have hcount := h.countOf_capacity k
    rw [hi.counts, ← h.assignedTo] at hcount
    exact Nat.add_right_cancel hcount
  latest subject := by
    rw [h.assigned, h.journal, lastMove_append]
    by_cases hs : p.subjectRef = subject
    · rw [if_pos hs, if_pos ⟨rfl, hs⟩]
      rfl
    · rw [if_neg hs, if_neg fun hr => hs hr.2, hi.latest]
  moves r hr hkind := by
    rw [h.journal] at hr
    rcases List.mem_append.mp hr with hr | hr
    · exact hi.moves r hr hkind
    · rw [List.mem_singleton.mp hr]
      rfl
  seats a ha := by
    rw [h.locations]
    rw [h.assignment, mem_upsert] at ha
    rcases ha with rfl | ⟨ha, -⟩
    · exact ⟨l, (mem_of_locationByID h.destination).1, rfl⟩
    · exact hi.seats a ha

theorem LeafOccupancy.reported {r : OpenReport F} (h : Reported t r t') : LeafOccupancy t' where
  rows l hl := by
    rw [h.capacity]
    exact hi.rows l (h.locations ▸ hl)
  counts k := by
    unfold assignedTo
    rw [h.capacity, h.assignment]
    exact hi.counts k
  latest s := by
    rw [h.journal, lastMove_append, if_neg (fun hr => nomatch hr.1), ← hi.latest]
    unfold assigned
    rw [h.assignment]
  moves r hr hkind := by
    rw [h.journal] at hr
    rcases List.mem_append.mp hr with hr | hr
    · exact hi.moves r hr hkind
    · rw [List.mem_singleton.mp hr] at hkind
      cases hkind
  seats a ha := by
    rw [h.locations]
    exact hi.seats a (h.assignment ▸ ha)

/-- The leaves of subjects were there before a new location. -/
theorem LeafOccupancy.lt_nextLocationKey {a : String × Nat}
    (ha : a ∈ t.assignment) : a.2 < t.nextLocationKey := by
  obtain ⟨l, hl, hkey⟩ := hi.seats a ha
  exact hkey ▸ lt_nextKey (List.mem_map_of_mem hl)

/-- The leaf of a subject counts it, also after another has been entered. -/
theorem LeafOccupancy.leave_isSome {rows : List (Counter Nat)} {k j : Nat}
    {subject : String} (henter : enter t.capacity j = some rows)
    (hk : t.assigned subject = some k) : (leave rows k).isSome := by
  rw [leave_isSome_iff, countOf_enter henter, hi.counts]
  refine Nat.add_pos_left (List.countP_pos_iff.mpr ⟨(subject, k), ?_, ?_⟩) _
  · exact assigned_eq_some_iff.mp hk
  · exact beq_self_eq_true k

/-- Where the transaction of a move is refused: a subject can always leave its leaf. -/
theorem LeafOccupancy.moveInTx_error {p : MoveParams} {e : LocError}
    (h : (moveInTx p t).1 = .error e) :
    (t.locationByID p.toLocationID = none ∧ e = .unknownLocation p.toLocationID) ∨
    ∃ l, t.locationByID p.toLocationID = some l ∧
      ((¬ Room t.capacity l.key ∧ e = .capacity .leaf (uint32 l.key)) ∨
      (∃ k, (leaveAll p.exited t.fenceCapacity).1 = .error k ∧ e = .invariant .fence k) ∨
      ∃ k, (enterAll p.entered (leaveAll p.exited t.fenceCapacity).2).1 = .error k ∧
        e = .capacity .fence k) := by
  rcases moveInTx_cases p t with ⟨l, hok, -⟩ | ⟨e', he', hcases⟩
  · rw [hok] at h
    cases h
  cases he'.symm.trans h
  rcases hcases with hnone | ⟨l, hl, ⟨hfull, he⟩ |
    ⟨rows, k, henter, hk, hnone, -⟩ | hleave | henter⟩
  · exact .inl hnone
  · refine .inr ⟨l, hl, .inl ⟨fun hroom => ?_, he⟩⟩
    rw [← enter_isSome_iff, hfull] at hroom
    cases hroom
  · have hsome := hi.leave_isSome henter hk
    rw [hnone] at hsome
    cases hsome
  · exact .inr ⟨l, hl, .inr (.inl hleave)⟩
  · exact .inr ⟨l, hl, .inr (.inr henter)⟩

end

end Tables

namespace LocSite

variable {F G : Type} [BEq F] [LE F] [DecidableLE F] [Geometry F G]

/-- A step keeps the occupancy of the locations. -/
theorem leafOccupancy_step (s : LocSite F G) (c : LocCmd F G) (hi : s.tables.LeafOccupancy) :
    (s.step c).tables.LeafOccupancy := by
  have hchange := (s.change_step c).1
  generalize (s.step c).tables = t' at hchange
  cases hchange with
  | upkeep h => exact hi.upkeep h
  | location hid hcap => exact hi.insertLocation
  | fence hne hid hcap => exact hi.insertFence
  | moved hs hp h | executed hp h => exact hi.moved h
  | reported hs hnew h => exact hi.reported h

theorem leafOccupancy_run (tenant : String) (now : Int) (cmds : List (LocCmd F G)) :
    (run step (init tenant now) cmds).tables.LeafOccupancy :=
  invariant_run (I := fun s : LocSite F G => s.tables.LeafOccupancy) leafOccupancy_step
    Tables.leafOccupancy_empty cmds

/-- **Locations count their subjects.**  In every state that commands lead to, the counter of a
location is the number of subjects assigned to it, and each subject is assigned to the
destination of its latest move; a move that is then refused changes nothing, and one that is
admitted does not leave its destination over the ceiling. -/
theorem leaf_occupancy (tenant : String) (now : Int) (cmds : List (LocCmd F G)) :
    let t := (run step (init tenant now) cmds).tables
    (∀ l ∈ t.locations, ∃ c, find t.capacity l.key = some c ∧
      c.count = t.assignment.countP fun a => a.2 == l.key) ∧
    (∀ subject, t.assigned subject = lastMove t.journal subject) ∧
    ∀ o p,
      (∀ e, (t.move o p).1 = .error e → (t.move o p).2 = t) ∧
      ((t.move o p).1 = .ok () → ∃ l c, t.locationByID p.toLocationID = some l ∧
        find (t.move o p).2.capacity l.key = some c ∧ ∀ m ∈ c.ceiling, (c.count : Int) ≤ m) := by
  intro t
  have hi : t.LeafOccupancy := leafOccupancy_run tenant now cmds
  refine ⟨fun l hl => ?_, hi.latest,
    fun o p => ⟨fun e he => (Tables.move_spec he).1, fun hok => ?_⟩⟩
  · obtain ⟨c, hc, hcount⟩ := exists_find (hi.rows l hl)
    exact ⟨c, hc, hcount.trans (hi.counts l.key)⟩
  · obtain ⟨-, p', l, hp', hmoved⟩ := Tables.move_spec hok
    obtain ⟨c, hc, hle⟩ := hmoved.le_ceiling
    exact ⟨l, c, (Tables.withDelta_spec hp').1.2 ▸ hmoved.destination, hc, hle⟩

end LocSite

end Xolu.Loc
