/-
# Leaving

The exit from a leaf or a fence is refused with an `InvariantError` if its counter is at zero.
A fence that counts at least the subjects inside it can always be left (`Counted`).  Moves and
reports keep that: what they enter they count.  The move of a transaction counts no fence, and
a new fence counts none of the subjects that are in its subtree already.  `Counts` is the
condition under which neither does harm, and `subject_can_leave` says that then no exit is
refused; `execute_strands_subject` is a run in which one is.
-/
import Xolu.Loc.Inside

namespace Xolu.Loc

open List Dxp Keyed Runs Tally

/-- The refusals of a move or a report that are not errors of the package itself. -/
def LocError.Refusal : LocError → Prop
  | .unknownLocation _ | .validation _ | .capacity _ _ => True
  | _ => False

instance : DecidablePred LocError.Refusal
  | .unknownLocation _ | .validation _ | .capacity _ _ => .isTrue trivial
  | .rootAnchor _ | .duplicateLocation _ | .capacityOnNonPostable _ | .duplicateFence _
  | .unknownFence _ | .geometry _ _ | .invariant _ _ | .constraint _ | .noRows _ | .emptyMove
  | .tenantMismatch _ | .noPending _ _ => .isFalse id

namespace Tables

variable {F G : Type} {t t' : Tables F G} {p : MoveParams} {l : Location F} {subject : String}

/-- The counters count at least the subjects inside. -/
structure Counted (t : Tables F G) : Prop where
  leaf : LeafOccupancy t
  rows : FenceRows t
  counts : ∀ k, t.around k + t.recorded k ≤ countOf t.fenceCapacity k

theorem counted_empty : Counted (empty : Tables F G) where
  leaf := leafOccupancy_empty
  rows := fenceRows_empty
  counts _ := le_rfl

/-! ### No exit is refused -/

/-- The fences around the leaf of a subject count it. -/
theorem Counted.pos_of_originFences (hi : Counted t) {k : Nat}
    (hk : k ∈ t.originFences subject) : 0 < countOf t.fenceCapacity k := by
  obtain ⟨leaf, hleaf, hmem⟩ := mem_originFences.mp hk
  have hpos : 0 < t.around k :=
    countP_pos_iff.mpr ⟨(subject, leaf), assigned_eq_some_iff.mp hleaf, decide_eq_true hmem⟩
  exact hpos.trans_le ((Nat.le_add_right ..).trans (hi.counts k))

/-- The fences that a subject is recorded in count it. -/
theorem Counted.pos_of_membership (hi : Counted t) {k : Nat}
    (hk : (subject, k) ∈ t.membership) : 0 < countOf t.fenceCapacity k := by
  have hpos : 0 < t.recorded k := countP_pos_iff.mpr ⟨(subject, k), hk, beq_self_eq_true k⟩
  exact hpos.trans_le ((Nat.le_add_left ..).trans (hi.counts k))

variable {o : MapOrder}

section

variable (hi : Counted t)

include hi

variable {new : List Nat}

/-- The fences that a move exits by its delta can be left. -/
theorem Counted.leaveAll_ok_of_delta :
    (leaveAll (delta o new (t.originFences subject)).2 t.fenceCapacity).1 = .ok () :=
  leaveAll_ok (nodup_delta ..).2 fun _ hk => hi.pos_of_originFences (mem_delta_snd.mp hk).1

/-- The fences that a report exits can be left. -/
theorem Counted.leaveAll_ok_of_report {lat lon : F} :
    (leaveAll (t.openReport o subject lat lon new).exited t.fenceCapacity).1 = .ok () :=
  leaveAll_ok (OpenReport.exitedNodup _) fun _ hk =>
    hi.pos_of_membership (hi.rows.mem_openReport.2.mp hk).1

/-- **A move** is refused for its parameters or for want of room only. -/
theorem Counted.move_refusal (hnil : p.entered = [] ∧ p.exited = []) {e : LocError}
    (h : (t.move o p).1 = .error e) : e.Refusal := by
  rcases hi.leaf.move_error_cases hnil h with ⟨-, d, rfl⟩ | ⟨-, id, rfl⟩ |
    ⟨l, -, ⟨-, k, rfl⟩ | ⟨hleave, -⟩ | ⟨-, k, rfl⟩⟩
  · trivial
  · trivial
  · trivial
  · exact absurd hi.leaveAll_ok_of_delta hleave
  · trivial

/-- **A report** is refused for its parameters or for want of room only. -/
theorem Counted.report_refusal [LE F] [DecidableLE F] [Geometry F G] {lat lon : F} {e : LocError}
    (h : (t.report o subject lat lon).1 = .error e) : e.Refusal := by
  rcases hi.rows.report_error_cases h with ⟨-, d, rfl⟩ | ⟨new, -, ⟨hleave, -⟩ | ⟨-, k, rfl⟩⟩
  · trivial
  · exact absurd hi.leaveAll_ok_of_report hleave
  · trivial

/-! ### What keeps the counts -/

theorem Counted.upkeep (h : Upkeep t t') : Counted t' where
  leaf := hi.leaf.upkeep h
  rows := hi.rows.upkeep h
  counts k := by
    have haround : t'.around k = t.around k := around_congr h.assignment
      (fun a _ => treeAlignedFenceKeys_congr h.alignment (h.ancestors a.2)) k
    rw [haround, recorded, h.membership, h.fenceCapacity]
    exact hi.counts k

theorem Counted.insertLocation {d : LocationDef F} {hid hcap} :
    Counted (t.insertLocation d hid hcap) where
  leaf := hi.leaf.insertLocation
  rows := ⟨hi.rows.counters, hi.rows.rtree, hi.rows.narrow⟩
  counts k := by
    have haround : (t.insertLocation d hid hcap).around k = t.around k := by
      refine @around_congr F G t (t.insertLocation d hid hcap) rfl (fun a ha => ?_) k
      exact @treeAlignedFenceKeys_congr F G t (t.insertLocation d hid hcap) _ rfl
        (ancestors_insertLocation (hi.leaf.lt_nextLocationKey ha))
    rw [haround]
    exact hi.counts k

/-- A new fence that is around no subject. -/
theorem Counted.insertFence {id : String} {aligned : Option String} {hid hcap}
    (hempty : ∀ a ∈ t.assignment, ∀ key ∈ t.alignedKeyOf aligned, key ∉ t.ancestors a.2) :
    Counted (t.insertFence id aligned hid hcap) where
  leaf := hi.leaf.insertFence
  rows := hi.rows.insertFence
  counts k := by
    have haround : (t.insertFence id aligned hid hcap).around k = t.around k := by
      refine @around_congr F G t (t.insertFence id aligned hid hcap) rfl (fun a ha => ?_) k
      rw [treeAlignedFenceKeys_insertFence, if_neg, append_nil]
      rintro ⟨key, hkey, hmem⟩
      exact hempty a ha key hkey hmem
    rw [haround]
    exact (hi.counts k).trans_eq (countOf_new _ _ k).symm

/-- A move with which the counters stay large enough. -/
theorem Counted.moved (h : Moved t p l t')
    (hcross : ∀ k, t.around k + t.recorded k + p.exited.count k +
        (if k ∈ t.treeAlignedFenceKeys l.key then 1 else 0) ≤
      countOf t.fenceCapacity k + p.entered.count k +
        if k ∈ t.originFences p.subjectRef then 1 else 0) : Counted t' where
  leaf := hi.leaf.moved h
  rows := hi.rows.moved h
  counts k := by
    have haround := h.around k
    have hcount := h.countOf_fenceCapacity k
    have hcross := hcross k
    rw [h.recorded]
    omega

/-- A move by its delta counts what it enters and exits. -/
theorem Counted.moved_delta {p' : MoveParams} (hnil : p.entered = [] ∧ p.exited = [])
    (hp : t.withDelta o p = .ok p') (h : Moved t p' l t') : Counted t' := by
  obtain ⟨-, hentered, hexited⟩ := h.of_withDelta hnil hp
  obtain ⟨⟨hsubject, -⟩, -⟩ := withDelta_spec hp
  refine hi.moved h fun k => ?_
  have hold := hi.counts k
  have hnd := nodup_delta o (t.treeAlignedFenceKeys l.key) (t.originFences p.subjectRef)
  rw [MoveParams.entered, MoveParams.exited, hentered, hexited, elems_slice, elems_slice,
    hnd.1.count, hnd.2.count, hsubject]
  simp only [mem_delta_fst, mem_delta_snd]
  by_cases hd : k ∈ t.treeAlignedFenceKeys l.key <;>
    by_cases ho : k ∈ t.originFences p.subjectRef <;> simp [hd, ho] <;> omega

/-- The move of a transaction, where the fences it enters have count to spare. -/
theorem Counted.executed {tp : DxpMoveParams} (h : Moved t tp.move l t')
    (hspare : ∀ k ∈ t.treeAlignedFenceKeys l.key, k ∉ t.originFences tp.subjectRef →
      t.around k + t.recorded k < countOf t.fenceCapacity k) : Counted t' := by
  refine hi.moved h fun k => ?_
  have hold := hi.counts k
  change _ + [].count k + _ ≤ _ + [].count k + if k ∈ t.originFences tp.subjectRef then 1 else 0
  by_cases hd : k ∈ t.treeAlignedFenceKeys l.key
  · by_cases ho : k ∈ t.originFences tp.subjectRef
    · simp [hd, ho, hold]
    · have hlt := hspare k hd ho
      simp only [count_nil, hd, ho, if_true, if_false]
      omega
  · simp only [count_nil, hd, if_false]
    omega

theorem Counted.reported {lat lon : F} (hnarrow : ∀ k ∈ new, uint32 k = k)
    (h : Reported t (t.openReport o subject lat lon new) t') : Counted t' where
  leaf := hi.leaf.reported h
  rows := hi.rows.reported h fun k hk => hnarrow k (hi.rows.mem_openReport.1.mp hk).1
  counts k := by
    have haround : t'.around k = t.around k :=
      around_congr h.assignment (fun a _ => treeAlignedFenceKeys_of_rows h.locations h.fences a.2) k
    have hrecorded := h.recorded (fun k hk => (hi.rows.mem_openReport.2.mp hk).1) k
    have hcount := h.countOf_fenceCapacity k
    have hold := hi.counts k
    omega

end

end Tables

/-! ### Runs -/

namespace LocSite

variable {F G : Type}

/-- Moves name no fences; the fences that the move of a transaction enters count more subjects
than are inside, and a new fence is aligned to a location with no subject in its subtree. -/
def Counts (s : LocSite F G) : LocCmd F G → Prop
  | .move _ p => p.entered = [] ∧ p.exited = []
  | .execute c => ∀ tp ∈ s.pending (claimKey c), ∀ l ∈ s.tables.locationByID tp.toLocationID,
    ∀ k ∈ s.tables.treeAlignedFenceKeys l.key, k ∉ s.tables.originFences tp.subjectRef →
      s.tables.around k + s.tables.recorded k < countOf s.tables.fenceCapacity k
  | .defFence _ aligned => ∀ a ∈ s.tables.assignment,
    ∀ key ∈ s.tables.alignedKeyOf aligned, key ∉ s.tables.ancestors a.2
  | _ => True

instance (s : LocSite F G) : DecidablePred s.Counts
  | .move .. => inferInstanceAs (Decidable (_ ∧ _))
  | .execute _ => inferInstanceAs (Decidable (∀ _ ∈ _, ∀ _ ∈ _, ∀ _ ∈ _, _))
  | .defFence .. => inferInstanceAs (Decidable (∀ _ ∈ _, ∀ _ ∈ _, _))
  | .defLocation .. | .patch .. | .setFenceGeometry .. | .setFenceCeiling .. | .report ..
  | .reserve .. | .validate .. | .postCommit .. | .release .. | .confirmTxn .. | .releaseTxn ..
  | .tick .. => .isTrue trivial

variable [BEq F] [LE F] [DecidableLE F] [Geometry F G]

theorem counted_step (s : LocSite F G) (c : LocCmd F G) (hi : s.tables.Counted)
    (hc : s.Counts c) : (s.step c).tables.Counted := by
  have hchange := (s.change_step c).1
  generalize (s.step c).tables = t' at hchange
  cases hchange with
  | upkeep h => exact hi.upkeep h
  | location hid hcap => exact hi.insertLocation
  | fence hne hid hcap => exact hi.insertFence hc
  | moved hs hp h => exact hi.moved_delta hc hp h
  | executed hp h => exact hi.executed h (hc _ hp _ h.destination)
  | reported hs hnew h => exact hi.reported (Tables.narrow_of_resolve hnew) h

/-- **A subject can leave.**  In every state that a run under the condition leads to, a move or
a report is refused for an unknown location, for its parameters or for want of room only. -/
theorem subject_can_leave (tenant : String) (now : Int) (cmds : List (LocCmd F G))
    (hc : Along step Counts (init tenant now) cmds) :
    let t := (run step (init tenant now) cmds).tables
    (∀ o p e, p.entered = [] ∧ p.exited = [] → (t.move o p).1 = .error e → e.Refusal) ∧
    ∀ o subject lat lon e, (t.report o subject lat lon).1 = .error e → e.Refusal := by
  intro t
  have hi : t.Counted := invariant_of_along (I := fun s : LocSite F G => s.tables.Counted)
    counted_step Tables.counted_empty hc
  exact ⟨fun o p e hnil h => hi.move_refusal hnil h, fun o s lat lon e h => hi.report_refusal h⟩

/-- Transactions may take a subject out of the fence and back, since it stays counted. -/
theorem subject_can_leave_room : Along step Counts (init "t" 0)
      (smallSite ++ [walk "room"] ++ transact "site" ++ transact "room") ∧
    ∀ e, ((run step (init "t" 0) (smallSite ++ [walk "room"] ++ transact "site" ++
      transact "room")).tables.move .asCollected ⟨"s", "site", none, none⟩).1 = .error e →
        e.Refusal :=
  ⟨by decide +kernel,
    fun e => (subject_can_leave "t" 0 _ (by decide +kernel)).1 _ _ e ⟨rfl, rfl⟩⟩

/-- A transaction takes a subject into the room, the fence does not count it, and the subject
cannot walk out. -/
theorem execute_strands_subject :
    ((run step (init "t" 0) (smallSite ++ transact "room")).tables.move .asCollected
      ⟨"s", "site", none, none⟩).1 = .error (.invariant .fence 1) := by
  decide +kernel

end LocSite

end Xolu.Loc
