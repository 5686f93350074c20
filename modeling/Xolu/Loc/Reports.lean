/-
# Reports that overlap (pkg/loc/geometry.go)

`Report` reads the recorded membership of its subject before it opens its transaction, and
writes the difference that it has computed from it.  `ReportSite` is a tenant with any number of
reports between the two (`OpenReport`): `read` opens one, `write` is the transaction of one of
them, and the other commands are those of the tenant that neither move nor report.

The entries of a stale report are refused, because the membership row is there already, but its
exits are not: the counter is taken down and the row deleted, whether it is there or not.
`CountsMembers` is therefore kept by exactly those writes that exit what is still recorded
(`Current`).
-/
import Xolu.Loc.Inside

namespace Xolu.Loc

open List Keyed Runs Tally Tables Fence

namespace Tables

variable {F G : Type} {t t' : Tables F G}

/-- The transaction of an open report. -/
def writeReport (r : OpenReport F) (t : Tables F G) : Except LocError Unit × Tables F G :=
  atomically (reportInTx r) t

/-! ### What a write does to the counters -/

section

variable (t : Tables F G)

/-- The guarded updates of the transaction match, and no entry is recorded already. -/
def AdmitsReport (r : OpenReport F) : Prop :=
  (∀ k ∈ r.exited, 0 < countOf t.fenceCapacity k) ∧
    ∀ k ∈ r.entered, Room t.fenceCapacity k ∧ (r.subject, k) ∉ t.membership
deriving Decidable

/-- The fences that the report exits are still recorded. -/
def StillRecorded (r : OpenReport F) : Prop := ∀ k ∈ r.exited, (r.subject, k) ∈ t.membership
deriving Decidable

/-- Every fence counts the subjects that are recorded in it. -/
def CountsMembers : Prop := ∀ f ∈ t.fences, countOf t.fenceCapacity f.key = t.recorded f.key
deriving Decidable

end

variable {r : OpenReport F}

/-- **The verdict of the transaction**, read off the rows before it. -/
theorem writeReport_ok_iff : (writeReport r t).1 = .ok () ↔ t.AdmitsReport r := by
  rw [writeReport, fst_atomically]
  constructor
  · intro h
    have hw := reportInTx_spec h
    have hroom := (enterAll_ok_iff r.enteredNodup).mp hw.enterAll_ok
    refine ⟨fun k hk => ?_, fun k hk => ⟨?_, fun hmem => ?_⟩⟩
    · rw [← countOf_leaveAll hw.leaveAll_ok k]
      exact Nat.add_pos_right _ (count_pos_iff.mpr hk)
    · exact (room_of_find (find_leaveAll_of_notMem fun hk' => r.apart k hk' hk)).mp (hroom k hk)
    · -- the row stays, as the fence is not exited, and would be there twice
      have hnd := (reportInTx r t).2.membershipKeys
      rw [hw.membership] at hnd
      refine (nodup_append.mp hnd).2.2 _ (mem_filter.mpr ⟨hmem, ?_⟩) _ (mem_map_of_mem hk) rfl
      exact decide_eq_true fun hexit => r.apart k hexit.2 hk
  · rintro ⟨hexit, henter⟩
    have hleave := leaveAll_ok r.exitedNodup hexit
    have hroom : ∀ k ∈ r.entered, Room (leaveAll r.exited t.fenceCapacity).2 k := fun k hk =>
      (room_of_find (find_leaveAll_of_notMem fun hk' => r.apart k hk' hk)).mpr (henter k hk).1
    rcases htx : (reportInTx r t).1 with e | u
    · rcases reportInTx_spec htx fun k hk => (henter k hk).2 with ⟨k, hk, -⟩ | ⟨k, hk, -⟩
      · rw [hleave] at hk
        cases hk
      · rw [(enterAll_ok_iff r.enteredNodup).mpr hroom] at hk
        cases hk
    · rfl

/-- A write that is not admitted changes nothing. -/
theorem writeReport_of_not_admits (h : ¬ t.AdmitsReport r) : (writeReport r t).2 = t := by
  rcases hw : (writeReport r t).1 with e | u
  · exact atomically_error hw
  · exact absurd (writeReport_ok_iff.mp hw) h

/-- What an admitted write does. -/
theorem reported_of_admits (h : t.AdmitsReport r) : Reported t r (writeReport r t).2 := by
  have heq := atomically_ok (writeReport_ok_iff.mpr h)
  have hw := reportInTx_spec (congrArg Prod.fst heq)
  rwa [heq] at hw

/-- The exit of a fence that is not recorded deletes no row of it. -/
theorem Reported.recorded_of_notMem (h : Reported t r t') {k : Nat}
    (hk : (r.subject, k) ∉ t.membership) (hentered : k ∉ r.entered) :
    t'.recorded k = t.recorded k := by
  unfold Tables.recorded
  have hnew : (r.entered.map (r.subject, ·)).countP (fun m => m.2 == k) = 0 := by
    rw [countP_map]
    exact count_eq_zero.mpr hentered
  rw [h.membership, countP_append, hnew, Nat.add_zero, countP_filter]
  refine countP_congr fun m hm => ?_
  rw [Bool.and_eq_true, decide_eq_true_eq, and_iff_left_iff_imp]
  rintro hkey ⟨hs, -⟩
  rw [beq_iff_eq] at hkey
  exact hk (by rwa [← hs, ← hkey])

/-- **A write keeps the counters** if and only if what it exits is still recorded. -/
theorem countsMembers_writeReport_iff (hrows : t.fenceCapacity.map Counter.key =
    t.fences.map key) (hcount : t.CountsMembers) :
    (writeReport r t).2.CountsMembers ↔ (t.AdmitsReport r → t.StillRecorded r) := by
  by_cases hadmits : t.AdmitsReport r
  · have hw := reported_of_admits hadmits
    have hchange := fun k => hw.countOf_fenceCapacity k
    rw [imp_iff_right hadmits]
    unfold CountsMembers
    rw [hw.fences]
    constructor
    · -- an exit that deletes nothing leaves the counter one below
      intro hafter k hk
      by_contra hnot
      obtain ⟨c, hc, hkey, -⟩ := exists_of_countOf_pos (hadmits.1 k hk)
      have hmem : k ∈ t.fences.map key := hrows ▸ hkey ▸ mem_map_of_mem hc
      obtain ⟨f, hf, rfl⟩ := mem_map.mp hmem
      have hk' := hchange f.key
      rw [hafter f hf, hw.recorded_of_notMem hnot (r.apart _ hk), ← hcount f hf,
        count_eq_zero.mpr (r.apart _ hk)] at hk'
      have hpos := count_pos_iff.mpr hk
      omega
    · intro hstill f hf
      have hrec := hw.recorded hstill f.key
      rw [← hcount f hf, ← hchange f.key] at hrec
      exact (Nat.add_right_cancel hrec).symm
  · rw [writeReport_of_not_admits hadmits]
    exact iff_of_true hcount fun h => absurd h hadmits

/-! ### What is kept -/

/-- What is kept: each fence has a counter, which counts the members, and members are of fences. -/
structure FenceMembers (t : Tables F G) : Prop where
  counters : t.fenceCapacity.map Counter.key = t.fences.map key
  members : ∀ m ∈ t.membership, m.2 ∈ t.fences.map key
  counts : t.CountsMembers

theorem fenceMembers_empty : FenceMembers (empty : Tables F G) where
  counters := rfl
  members _ hm := nomatch hm
  counts _ hf := nomatch hf

theorem FenceMembers.upkeep (hi : FenceMembers t) (h : t.Upkeep t') : FenceMembers t' where
  counters := by rw [h.fenceCapacityKeys, h.fenceKeys, hi.counters]
  members := by
    rw [h.membership, h.fenceKeys]
    exact hi.members
  counts f hf := by
    have hkey : f.key ∈ t.fences.map key := h.fenceKeys ▸ mem_map_of_mem hf
    obtain ⟨f', hf', heq⟩ := mem_map.mp hkey
    rw [h.fenceCapacity, ← heq, hi.counts f' hf']
    unfold recorded
    rw [h.membership]

theorem FenceMembers.insertFence (hi : FenceMembers t) {id : String} {aligned : Option String}
    {hid hcap} : FenceMembers (t.insertFence id aligned hid hcap) where
  counters := by
    change (t.fenceCapacity ++ [_]).map Counter.key = (t.fences ++ [_]).map key
    rw [map_append, map_append, hi.counters]
    rfl
  members m hm := by
    change m.2 ∈ (t.fences ++ [_]).map key
    rw [map_append]
    exact mem_append_left _ (hi.members m hm)
  counts f hf := by
    refine (countOf_new _ _ f.key).trans ?_
    rcases mem_append.mp hf with hf | hf
    · exact hi.counts f hf
    · -- nobody is in a fence that was not there
      have hkey : f.key = t.nextFenceKey := by rw [mem_singleton.mp hf]
      rw [hkey, countOf_of_find_eq_none hcap]
      refine (countP_eq_zero.mpr fun m hm heq => ?_).symm
      rw [beq_iff_eq] at heq
      exact (lt_nextKey (hi.members m hm)).ne heq

theorem FenceMembers.writeReport (hi : FenceMembers t)
    (hcurrent : t.AdmitsReport r → t.StillRecorded r) : FenceMembers (writeReport r t).2 := by
  have hcounts := (countsMembers_writeReport_iff hi.counters hi.counts).mpr hcurrent
  by_cases hadmits : t.AdmitsReport r
  · have hw := reported_of_admits hadmits
    refine ⟨by rw [hw.fenceKeys, hw.fences, hi.counters], fun m hm => ?_, hcounts⟩
    rw [hw.fences]
    rw [hw.membership, mem_append] at hm
    rcases hm with hm | hm
    · exact hi.members m (mem_filter.mp hm).1
    · obtain ⟨k, hk, rfl⟩ := mem_map.mp hm
      obtain ⟨c, hc, -⟩ := (hadmits.2 k hk).1
      rw [← hi.counters]
      exact find_isSome_iff.mp (Option.isSome_of_eq_some hc)
  · rwa [writeReport_of_not_admits hadmits]

end Tables

/-! ### Runs -/

/-- A command that neither moves nor reports. -/
def LocCmd.Quiet {F G : Type} : LocCmd F G → Bool
  | .move .. | .report .. | .execute _ => false
  | _ => true

/-- A tenant and its open reports. -/
structure ReportSite (F G : Type) where
  site : LocSite F G
  calls : List (OpenReport F)

/-- A step of a tenant whose reports overlap. -/
inductive ReportCmd (F G : Type) where
  | quiet (c : LocCmd F G) (h : c.Quiet = true)
  | read (o : MapOrder) (subject : String) (lat lon : F)
  /-- The transaction of the call at a place in the list of the open ones. -/
  | write (i : Nat)

namespace ReportSite

variable {F G : Type} [BEq F] [LE F] [DecidableLE F] [Geometry F G]

/-- A tenant without calls. -/
def init (tenant : String) (now : Int) : ReportSite F G := ⟨.init tenant now, []⟩

section

variable (s : ReportSite F G)

/-- The state after a step. -/
def step : ReportCmd F G → ReportSite F G
  | .quiet c _ => { s with site := s.site.step c }
  | .read o subject lat lon =>
    { s with
      calls := match s.site.tables.readReport o subject lat lon with
        | .ok (some r) => s.calls ++ [r]
        | _ => s.calls }
  | .write i =>
    match s.calls[i]? with
    | none => s
    | some r =>
      { site := { s.site with tables := (writeReport r s.site.tables).2 }
        calls := s.calls.eraseIdx i }

/-- The call whose transaction runs exits what is still recorded, or is refused. -/
def Current : ReportCmd F G → Prop
  | .write i => ∀ r ∈ s.calls[i]?, s.site.tables.AdmitsReport r → s.site.tables.StillRecorded r
  | _ => True

instance (c : ReportCmd F G) : Decidable (s.Current c) :=
  match c with
  | .write _ => inferInstanceAs (Decidable (∀ _ ∈ _, _))
  | .quiet .. | .read .. => .isTrue trivial

/-- After the step every fence counts its members. -/
def Counts (c : ReportCmd F G) : Prop := (s.step c).site.tables.CountsMembers
deriving Decidable

end

theorem fenceMembers_site_step (s : LocSite F G) {c : LocCmd F G} (hc : c.Quiet = true)
    (hi : s.tables.FenceMembers) : (s.step c).tables.FenceMembers := by
  have hchange := (s.change_step c).1
  generalize (s.step c).tables = t' at hchange
  cases hchange with
  | upkeep h => exact hi.upkeep h
  | location hid hcap => exact ⟨hi.counters, hi.members, hi.counts⟩
  | fence hne hid hcap => exact hi.insertFence
  | moved | executed | reported => cases hc

variable {s : ReportSite F G}

theorem step_write_of_none {i : Nat} (h : s.calls[i]? = none) : s.step (.write i) = s := by
  simp only [step, h]

theorem step_write_of_some {i : Nat} {r : OpenReport F} (h : s.calls[i]? = some r) :
    (s.step (.write i)).site.tables = (writeReport r s.site.tables).2 := by
  simp only [step, h]

/-- A step of the tenant keeps the invariant if the write is current. -/
theorem fenceMembers_step (s : ReportSite F G) (c : ReportCmd F G) (hi : s.site.tables.FenceMembers)
    (hcurrent : s.Current c) : (s.step c).site.tables.FenceMembers := by
  cases c with
  | quiet c hc => exact fenceMembers_site_step s.site hc hi
  | read o subject lat lon => exact hi
  | write i =>
    rcases hr : s.calls[i]? with - | r
    · rwa [step_write_of_none hr]
    · rw [step_write_of_some hr]
      exact hi.writeReport (hcurrent r hr)

/-- The counters are right after a step if and only if the write is current. -/
theorem counts_iff_current (s : ReportSite F G) (c : ReportCmd F G)
    (hi : s.site.tables.FenceMembers) : s.Counts c ↔ s.Current c := by
  cases c with
  | quiet c hc => exact iff_of_true (fenceMembers_site_step s.site hc hi).counts trivial
  | read o subject lat lon => exact iff_of_true hi.counts trivial
  | write i =>
    unfold Counts Current
    rcases hr : s.calls[i]? with - | r
    · rw [step_write_of_none hr]
      exact iff_of_true hi.counts fun r h => by simp [hr] at h
    · rw [step_write_of_some hr, countsMembers_writeReport_iff hi.counters hi.counts]
      simp [hr]

/-- **Overlapping reports.**  In a run of any number of reports that overlap, with fences defined
and shaped in between, every fence counts its members after every step if and only if every
transaction that is admitted exits fences that are still recorded for its subject. -/
theorem overlapping_reports_count_iff (tenant : String) (now : Int) (cmds : List (ReportCmd F G)) :
    Along step Counts (init tenant now) cmds ↔ Along step Current (init tenant now) cmds := by
  refine along_iff_of_invariant (I := fun s : ReportSite F G => s.site.tables.FenceMembers)
    (fun s c hi _ => fenceMembers_step s c hi) (fun s c hi _ => counts_iff_current s c hi) ?_
    .trivial
  exact fenceMembers_empty

/-- A report of a subject at a latitude, to be written. -/
def readAt (subject : String) (lat : Int) : ReportCmd Int (Box Int) :=
  .read .asCollected subject lat 0

/-- Two subjects are in a fence, and two reports that one of them has left overlap. -/
def twoExits : List (ReportCmd Int (Box Int)) :=
  [.quiet (.defFence "zone" none) rfl, .quiet (.setFenceGeometry "zone" ⟨0, 0, 9, 9⟩) rfl,
    readAt "a" 1, .write 0, readAt "b" 1, .write 0, readAt "a" 10, readAt "a" 10,
    .write 0, .write 0]

/-- The second exit takes the counter down once more: it counts nobody, and `b` is still there. -/
theorem overlapping_exits_drift : let t := (run step (init "t" 0) twoExits).site.tables
    t.membership = [("b", 1)] ∧ t.fenceCapacity = [⟨1, none, 0⟩] ∧
      ¬ Along step Counts (init "t" 0) twoExits := by
  decide +kernel

end ReportSite

end Xolu.Loc
