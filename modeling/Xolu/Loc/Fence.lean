/-
# The occupancy of fences

A fence should count the distinct subjects inside it: those assigned below the location it is
aligned to and those recorded by reports.  Reports record what they enter; moves count what
they enter and record nothing, the move of a transaction does not even count, a new fence
counts nobody, and a report can drop a subject whose leaf the fence is around.  Where none of
this happens (`Steady`), everyone inside is recorded and the counters count the records
(`Recording`); `fence_occupancy_iff` says that only then the counts and the oracles are right.
-/
import Xolu.Loc.Inside
import Xolu.Loc.Verify

namespace Xolu.Loc

open Dxp Fingerprint Keyed Runs Tally MoveParams Tables
open List hiding beq_eq_decide

namespace Tables

variable {F G : Type} {t t' : Tables F G} {f : Fence G} {subject : String}

/-! ### The subjects inside -/

/-- The subjects that are recorded in the fence of a key. -/
def membersOf (t : Tables F G) (k : Nat) : List String :=
  (t.membership.filter (·.2 = k)).map Prod.fst

/-- The distinct subjects inside a fence. -/
def inside (t : Tables F G) (f : Fence G) : List String :=
  ((t.assignment.filter fun a => decide (t.Around f a.2)).map Prod.fst ++ t.membersOf f.key).dedup

variable {k : Nat}

theorem mem_membersOf : subject ∈ t.membersOf k ↔ (subject, k) ∈ t.membership := by
  unfold membersOf
  simp only [mem_map, mem_filter, decide_eq_true_eq]
  constructor
  · rintro ⟨m, ⟨hmem, rfl⟩, rfl⟩
    exact hmem
  · exact fun hmem => ⟨_, ⟨hmem, rfl⟩, rfl⟩

theorem nodup_membersOf (t : Tables F G) (k : Nat) : (t.membersOf k).Nodup := by
  refine (t.membershipKeys.filter _).map_on fun a ha b hb hab => ?_
  have hka := of_decide_eq_true (mem_filter.mp ha).2
  have hkb := of_decide_eq_true (mem_filter.mp hb).2
  exact Prod.ext hab (hka.trans hkb.symm)

theorem length_membersOf (t : Tables F G) (k : Nat) : (t.membersOf k).length = t.recorded k := by
  unfold membersOf recorded
  rw [length_map, countP_eq_length_filter]
  simp only [beq_eq_decide]

theorem mem_inside : subject ∈ t.inside f ↔
    (∃ leaf, (subject, leaf) ∈ t.assignment ∧ t.Around f leaf) ∨
      (subject, f.key) ∈ t.membership := by
  unfold inside
  simp only [mem_dedup, mem_append, mem_membersOf, mem_map, mem_filter,
    decide_eq_true_eq, Prod.exists, exists_and_right, exists_eq_right]

theorem membersOf_subset_inside : t.membersOf f.key ⊆ t.inside f :=
  fun _ h => mem_inside.mpr (.inr (mem_membersOf.mp h))

theorem recorded_le_inside : t.recorded f.key ≤ (t.inside f).length := by
  rw [← length_membersOf]
  exact (subperm_of_subset (t.nodup_membersOf f.key) membersOf_subset_inside).length_le

/-- A subject below the fence that is not recorded makes a difference. -/
theorem recorded_lt_inside {a : String × Nat} (ha : a ∈ t.assignment) (haround : t.Around f a.2)
    (hnot : (a.1, f.key) ∉ t.membership) : t.recorded f.key < (t.inside f).length := by
  rw [← length_membersOf]
  have hnd : (a.1 :: t.membersOf f.key).Nodup :=
    nodup_cons.mpr ⟨fun h => hnot (mem_membersOf.mp h), t.nodup_membersOf f.key⟩
  exact (subperm_of_subset hnd (cons_subset.mpr
    ⟨mem_inside.mpr (.inl ⟨a.2, ha, haround⟩), membersOf_subset_inside⟩)).length_le

/-- Everyone below the fence is recorded in it. -/
def AllRecorded (t : Tables F G) (f : Fence G) : Prop :=
  ∀ a ∈ t.assignment, t.Around f a.2 → (a.1, f.key) ∈ t.membership

theorem AllRecorded.length_inside (h : t.AllRecorded f) :
    (t.inside f).length = t.recorded f.key := by
  refine le_antisymm ?_ recorded_le_inside
  rw [← length_membersOf]
  refine (subperm_of_subset (nodup_dedup _) fun s hs => mem_membersOf.mpr ?_).length_le
  rcases mem_inside.mp hs with ⟨leaf, ha, haround⟩ | hmem
  · exact h _ ha haround
  · exact hmem

/-- Every fence counts the distinct subjects inside it, and the oracles for fences agree. -/
structure FenceOccupancy (t : Tables F G) : Prop where
  counts : ∀ f ∈ t.fences, ∃ c, find t.fenceCapacity f.key = some c ∧ c.count = (t.inside f).length
  membershipOracle : t.fenceMembershipFoldOracle.Agrees
  occupancyOracle : t.fenceOccupancyFoldOracle.Agrees

theorem FenceOccupancy.countOf (h : FenceOccupancy t) (hf : f ∈ t.fences) :
    countOf t.fenceCapacity f.key = (t.inside f).length := by
  obtain ⟨c, hc, hcount⟩ := h.counts f hf
  exact (countOf_of_find hc).trans hcount

/-- Everyone inside is recorded; the counters and the journal know the records. -/
structure Recording (t : Tables F G) : Prop where
  leaf : LeafOccupancy t
  rows : FenceRows t
  inside : ∀ f ∈ t.fences, t.AllRecorded f
  counts : ∀ k, countOf t.fenceCapacity k = t.recorded k
  nets : ∀ subject k, net t.journal subject (some k) = if (subject, k) ∈ t.membership then 1 else 0
  nulls : ∀ subject, net t.journal subject none ≤ 0

theorem recording_empty : Recording (empty : Tables F G) where
  leaf := leafOccupancy_empty
  rows := fenceRows_empty
  inside _ hf := nomatch hf
  counts _ := rfl
  nets _ _ := rfl
  nulls _ := le_rfl

theorem Recording.net_pos_iff (hi : Recording t) {k : Option Nat} :
    0 < net t.journal subject k ↔ ∃ n, k = some n ∧ (subject, n) ∈ t.membership := by
  cases k with
  | none =>
    have hnull := hi.nulls subject
    refine iff_of_false (by omega) ?_
    rintro ⟨n, hn, -⟩
    cases hn
  | some k =>
    rw [hi.nets]
    split_ifs with h <;> simp [h]

/-- **Records are enough** for the counts and the oracles. -/
theorem Recording.fenceOccupancy (hi : Recording t) : FenceOccupancy t := by
  obtain ⟨hmembership, hoccupancy⟩ := fenceOracles_agree (fun _ _ => hi.net_pos_iff) hi.counts
  refine ⟨fun f hf => ?_, hmembership, hoccupancy⟩
  have hmem : f.key ∈ t.fenceCapacity.map Counter.key := hi.rows.counters ▸ mem_map_of_mem hf
  obtain ⟨c, hc, hcount⟩ := exists_find hmem
  refine ⟨c, hc, ?_⟩
  rw [hcount, hi.counts, (hi.inside f hf).length_inside]

/-! ### What keeps the records -/

/-- The same subjects below the same fences, and the same records. -/
theorem allRecorded_congr (halign : t'.alignments = t.alignments)
    (hassign : t'.assignment = t.assignment) (hmembers : t'.membership = t.membership)
    (hanc : ∀ a ∈ t.assignment, t'.ancestors a.2 = t.ancestors a.2)
    (h : ∀ f ∈ t.fences, t.AllRecorded f) : ∀ f ∈ t'.fences, t'.AllRecorded f := by
  intro f' hf' a ha haround
  have hmem : (f'.key, f'.alignedLocationKey) ∈ t.alignments :=
    halign ▸ mem_map_of_mem (f := fun f : Fence G => (f.key, f.alignedLocationKey)) hf'
  obtain ⟨f, hf, heq⟩ := mem_map.mp hmem
  obtain ⟨hkey, haligned⟩ := Prod.mk.inj heq
  rw [hassign] at ha
  rw [around_iff_of_ancestors (hanc a ha)] at haround
  rw [hmembers, ← hkey]
  refine h f hf a ha ?_
  unfold Around at haround ⊢
  rwa [haligned]

theorem Upkeep.net (h : Upkeep t t') (subject : String) (k : Option Nat) :
    net t'.journal subject k = net t.journal subject k := by
  obtain ⟨rows, hjournal, hidle⟩ := h.journal
  rw [hjournal, net_append, net_eq_zero fun r hr => (hidle r hr).2.1.trans (hidle r hr).2.2.symm,
    add_zero]

theorem Recording.upkeep (hi : Recording t) (h : Upkeep t t') : Recording t' where
  leaf := hi.leaf.upkeep h
  rows := hi.rows.upkeep h
  inside := allRecorded_congr h.alignment h.assignment h.membership
    (fun a _ => h.ancestors a.2) hi.inside
  counts k := by
    rw [h.fenceCapacity, hi.counts, recorded, recorded, h.membership]
  nets subject k := by rw [h.net, hi.nets, h.membership]
  nulls subject := (h.net subject none).trans_le (hi.nulls subject)

theorem Recording.insertLocation (hi : Recording t) {d : LocationDef F} {hid hcap} :
    Recording (t.insertLocation d hid hcap) where
  leaf := hi.leaf.insertLocation
  rows := ⟨hi.rows.counters, hi.rows.rtree, hi.rows.narrow⟩
  inside := @allRecorded_congr F G t (t.insertLocation d hid hcap) rfl rfl rfl
    (fun _ ha => ancestors_insertLocation (hi.leaf.lt_nextLocationKey ha)) hi.inside
  counts := hi.counts
  nets := hi.nets
  nulls := hi.nulls

variable {aligned : Option String} {id : String}

/-- A new fence that is around no subject. -/
theorem Recording.insertFence (hi : Recording t) {hid hcap}
    (hempty : ∀ a ∈ t.assignment, ∀ key ∈ t.alignedKeyOf aligned, key ∉ t.ancestors a.2) :
    Recording (t.insertFence id aligned hid hcap) where
  leaf := hi.leaf.insertFence
  rows := hi.rows.insertFence
  inside f hf a ha haround := by
    rw [around_iff_of_ancestors (ancestors_insertFence a.2)] at haround
    rcases mem_append.mp hf with hf | hf
    · exact hi.inside f hf a ha haround
    · obtain ⟨key, hkey, hmem⟩ := haround
      rw [mem_singleton.mp hf] at hkey
      exact absurd hmem (hempty a ha key hkey)
  counts k := (countOf_new _ _ k).trans (hi.counts k)
  nets := hi.nets
  nulls := hi.nulls

/-- The subject is recorded in all fences around a leaf. -/
def RecordedAround (t : Tables F G) (subject : String) (leaf : Nat) : Prop :=
  ∀ f ∈ t.fences, t.Around f leaf → (subject, f.key) ∈ t.membership
deriving Decidable

/-- A move to a leaf stays in the same aligned fences and ends where the subject is recorded. -/
def StaysRecorded (t : Tables F G) (subject : String) (leaf : Nat) : Prop :=
  (∀ k ∈ t.treeAlignedFenceKeys leaf, k ∈ t.originFences subject) ∧
    (∀ k ∈ t.originFences subject, k ∈ t.treeAlignedFenceKeys leaf) ∧ t.RecordedAround subject leaf
deriving Decidable

variable {p : MoveParams} {l : Location F}

theorem Moved.net (h : Moved t p l t') (subject : String) (k : Option Nat) :
    net t'.journal subject k = net t.journal subject k + if p.subjectRef = subject then
      (moveRow (F := F) p (t.assigned p.subjectRef) l.key).net k else 0 := by
  rw [h.journal, net_append, net_singleton]
  rfl

/-- A move that crosses no fence, to a leaf around which the subject is recorded. -/
theorem Recording.moved (hi : Recording t) (h : Moved t p l t')
    (hentered : p.enteredFenceKeys = none) (hexited : p.exitedFenceKeys = none)
    (hrec : t.RecordedAround p.subjectRef l.key) : Recording t' where
  leaf := hi.leaf.moved h
  rows := hi.rows.moved h
  inside f hf a ha haround := by
    rw [h.fences] at hf
    rw [around_iff_of_ancestors (ancestors_of_locations h.locations a.2)] at haround
    rw [h.membership]
    rw [h.assignment, mem_upsert] at ha
    rcases ha with rfl | ⟨ha, -⟩
    · exact hrec f hf haround
    · exact hi.inside f hf a ha haround
  counts k := by
    have hcount := h.countOf_fenceCapacity k
    rw [entered, exited, hentered, hexited, hi.counts] at hcount
    rw [recorded, h.membership]
    exact Nat.add_right_cancel hcount
  nets subject k := by
    rw [h.net, JournalRow.net_eq_zero (hentered.trans hexited.symm), ite_self, add_zero,
      h.membership]
    exact hi.nets subject k
  nulls subject := by
    rw [h.net, JournalRow.net_eq_zero (hentered.trans hexited.symm), ite_self, add_zero]
    exact hi.nulls subject

section

variable {r : OpenReport F}

theorem Reported.mem_membership (h : Reported t r t') {m : String × Nat} : m ∈ t'.membership ↔
    (m ∈ t.membership ∧ ¬ (m.1 = r.subject ∧ m.2 ∈ r.exited)) ∨
      (m.1 = r.subject ∧ m.2 ∈ r.entered) := by
  rw [h.membership, mem_append, mem_filter, decide_eq_true_eq, mem_map]
  refine or_congr_right ⟨?_, fun ⟨hs, hk⟩ => ⟨m.2, hk, Prod.ext hs.symm rfl⟩⟩
  rintro ⟨k, hk, rfl⟩
  exact ⟨rfl, hk⟩

theorem Reported.net (h : Reported t r t') (s : String) (k : Option Nat) :
    net t'.journal s k = net t.journal s k + if r.subject = s then (reportRow r).net k else 0 := by
  rw [h.journal, net_append, net_singleton]
  rfl

/-- What a report adds to the net of nulls: a null for each list that is empty. -/
theorem net_reportRow_none (r : OpenReport F) : (reportRow r).net none =
    (if r.entered = [] then 1 else 0) - if r.exited = [] then 1 else 0 := by
  change ((jsonEach (slice r.entered)).count none - (jsonEach (slice r.exited)).count none : Int) =
    _
  rw [count_none_jsonEach, count_none_jsonEach]
  split_ifs <;> rfl

theorem net_reportRow_some (r : OpenReport F) (k : Nat) :
    (reportRow r).net (some k) = r.entered.count k - r.exited.count k := by
  rw [JournalRow.net_some]
  change ((elems (slice r.entered)).count k - (elems (slice r.exited)).count k : Int) = _
  rw [elems_slice, elems_slice]

variable {o : MapOrder} {lat lon : F} {new : List Nat}

/-- The report of a subject drops no fence that is around its leaf. -/
def KeepsAround (t : Tables F G) (subject : String) (new : List Nat) : Prop :=
  ∀ f ∈ t.fences, (subject, f.key) ∈ t.membership → f.key ∉ new →
    ∀ leaf ∈ t.assigned subject, ¬ t.Around f leaf
deriving Decidable

/-- A report that only exits comes after more reports that only enter. -/
def PaysNull (t : Tables F G) (subject : String) (new : List Nat) : Prop :=
  (∀ k ∈ new, k ∈ t.currentFenceKeys subject) → (¬ ∀ k ∈ t.currentFenceKeys subject, k ∈ new) →
    Loc.net t.journal subject none < 0
deriving Decidable

/-- A report that drops no fence around the leaf of the subject and leaves no null. -/
theorem Recording.reported (hi : Recording t) (hnarrow : ∀ k ∈ new, uint32 k = k)
    (h : Reported t (t.openReport o subject lat lon new) t')
    (hkeeps : t.KeepsAround subject new) (hpays : t.PaysNull subject new) : Recording t' where
  leaf := hi.leaf.reported h
  rows := hi.rows.reported h fun k hk => hnarrow k (hi.rows.mem_openReport.1.mp hk).1
  inside f hf a ha haround := by
    rw [h.fences] at hf
    rw [h.assignment] at ha
    rw [around_iff_of_ancestors (ancestors_of_locations h.locations a.2)] at haround
    have hrec := hi.inside f hf a ha haround
    refine h.mem_membership.mpr (.inl ⟨hrec, fun ⟨hs, hk⟩ => ?_⟩)
    subst hs
    exact hkeeps f hf hrec (hi.rows.mem_openReport.2.mp hk).2 a.2 (assigned_eq_some_iff.mpr ha)
      haround
  counts k := by
    have hrecorded := h.recorded (fun k hk => (hi.rows.mem_openReport.2.mp hk).1) k
    have hcount := h.countOf_fenceCapacity k
    rw [hi.counts, ← hrecorded] at hcount
    exact Nat.add_right_cancel hcount
  nets s k := by
    rw [h.net, net_reportRow_some, (OpenReport.enteredNodup _).count,
      (OpenReport.exitedNodup _).count, hi.nets]
    simp only [h.mem_membership, hi.rows.mem_openReport]
    by_cases hs : s = subject
    · subst hs
      by_cases hm : (s, k) ∈ t.membership <;> by_cases hn : k ∈ new <;> simp [hm, hn]
    · simp [hs, Ne.symm hs]
  nulls s := by
    have hold := hi.nulls s
    rw [h.net, net_reportRow_none, subject_openReport]
    split_ifs with hs hentered hexited <;> try omega
    have hneg := hpays (delta_fst_eq_nil.mp hentered) (delta_snd_eq_nil.not.mp hexited)
    rw [hs] at hneg
    omega

end

/-! ### Where the counts go wrong -/

theorem FenceRows.exists_fence (hr : FenceRows t)
    (h : 0 < countOf t.fenceCapacity k) : ∃ f ∈ t.fences, f.key = k := by
  obtain ⟨c, hc, hkey, -⟩ := exists_of_countOf_pos h
  have hmem : k ∈ t.fenceCapacity.map Counter.key := hkey ▸ mem_map_of_mem hc
  rw [hr.counters] at hmem
  exact mem_map.mp hmem

section

variable (hi : Recording t) (h : Moved t p l t')

include hi h

/-- A fence that a move exits loses a count, but the record stays. -/
theorem Recording.mem_entered_of_exited (hP : FenceOccupancy t') (hk : k ∈ p.exited) :
    k ∈ p.entered := by
  by_contra hnot
  have hcount := h.countOf_fenceCapacity k
  have hpos : 0 < p.exited.count k := count_pos_iff.mpr hk
  rw [count_eq_zero_of_not_mem hnot, hi.counts] at hcount
  obtain ⟨f, hf, rfl⟩ := hi.rows.exists_fence (hi.counts k ▸ (by omega : 0 < t.recorded k))
  have hlen := hP.countOf (h.fences.symm ▸ hf)
  have hle := @recorded_le_inside F G t' f
  rw [h.recorded] at hle
  omega

/-- If someone below a fence is not recorded after a move, that is the subject. -/
theorem Recording.not_recorded (hf : f ∈ t'.fences)
    (hmore : t'.recorded f.key < (t'.inside f).length) : (p.subjectRef, f.key) ∉ t.membership := by
  have hnot : ¬ t'.AllRecorded f := fun hall => hmore.ne hall.length_inside.symm
  unfold AllRecorded at hnot
  push Not at hnot
  obtain ⟨a, ha, haround, hnot⟩ := hnot
  rw [h.membership] at hnot
  rw [h.assignment, mem_upsert] at ha
  rcases ha with rfl | ⟨ha, -⟩
  · exact hnot
  · rw [around_iff_of_ancestors (ancestors_of_locations h.locations a.2)] at haround
    exact absurd (hi.inside f (h.fences ▸ hf) a ha haround) hnot

/-- A fence that a move enters gains a count.  If the subject was recorded, it is counted twice;
if it was not, the journal has an entry for which there is no record. -/
theorem Recording.entered_eq_nil (hP : FenceOccupancy t') (hexited : p.exited = []) :
    p.entered = [] := by
  by_contra hne
  obtain ⟨k, hk⟩ := exists_mem_of_ne_nil _ hne
  have hpos : 0 < p.entered.count k := count_pos_iff.mpr hk
  have hcount := h.countOf_fenceCapacity k
  rw [hexited, count_nil, Nat.add_zero, hi.counts] at hcount
  obtain ⟨f, hf, rfl⟩ := (hi.rows.moved h).exists_fence (by omega : 0 < countOf _ k)
  have hlen := hP.countOf hf
  have hrecorded := h.recorded f.key
  have hnot := hi.not_recorded h hf (by omega)
  have hrow : ∀ j, (moveRow (F := F) p (t.assigned p.subjectRef) l.key).net (some j) =
      p.entered.count j := fun j => by
    rw [JournalRow.net_some]
    change ((p.entered.count j : Int) - p.exited.count j) = _
    rw [hexited, count_nil, Int.natCast_zero, sub_zero]
  refine not_agrees_of_net (fun m hm => ?_) ?_ (h.membership.symm ▸ hnot) hP.membershipOracle
  · rw [h.membership] at hm
    rw [h.net, hi.nets, if_pos hm, hrow]
    split_ifs <;> omega
  · rw [h.net, hi.nets, if_neg hnot, if_pos rfl, hrow, zero_add]
    exact Int.natCast_pos.mpr hpos

/-- Below a fence that does not know it, a subject is not counted. -/
theorem Recording.recordedAround (hP : FenceOccupancy t') (hentered : p.entered = [])
    (hexited : p.exited = []) : t.RecordedAround p.subjectRef l.key := by
  intro f hf haround
  by_contra hnot
  have hcount := h.countOf_fenceCapacity f.key
  rw [hentered, hexited, hi.counts] at hcount
  have hlen := hP.countOf (h.fences.symm ▸ hf)
  have hmem : (p.subjectRef, l.key) ∈ t'.assignment := by
    rw [h.assignment, mem_upsert]
    exact .inl rfl
  rw [← around_iff_of_ancestors (ancestors_of_locations h.locations l.key)] at haround
  have hlt := recorded_lt_inside hmem haround (h.membership.symm ▸ hnot)
  rw [h.recorded] at hlt
  omega

end

variable {o : MapOrder}

/-- So a move by its delta crosses no fence. -/
theorem Recording.staysRecorded (hi : Recording t) {p' : MoveParams}
    (hnil : p.entered = [] ∧ p.exited = []) (hp : t.withDelta o p = .ok p')
    (h : Moved t p' l t') (hP : FenceOccupancy t') : t.StaysRecorded p.subjectRef l.key := by
  obtain ⟨-, hentered, hexited⟩ := h.of_withDelta hnil hp
  obtain ⟨⟨hsubject, -⟩, -⟩ := withDelta_spec hp
  -- what is exited would have to be entered too
  have hout : p'.exited = [] := eq_nil_iff_forall_not_mem.mpr fun k hk => by
    have hin := hi.mem_entered_of_exited h hP hk
    rw [exited, hexited, elems_slice] at hk
    rw [entered, hentered, elems_slice] at hin
    exact (mem_delta_fst.mp hin).2 (mem_delta_snd.mp hk).1
  have hin := hi.entered_eq_nil h hP hout
  have hrec := hi.recordedAround h hP hin hout
  rw [exited, hexited, elems_slice] at hout
  rw [entered, hentered, elems_slice] at hin
  exact ⟨delta_fst_eq_nil.mp hin, delta_snd_eq_nil.mp hout, hsubject ▸ hrec⟩

variable {new : List Nat} {lat lon : F}

section

variable (h : Reported t (t.openReport o subject lat lon new) t')

include h

/-- A report that drops a fence around the leaf of the subject. -/
theorem Recording.keepsAround (hi : Recording t) (hP : FenceOccupancy t') :
    t.KeepsAround subject new := by
  intro f hf hmem hnew leaf hleaf haround
  have hcount := h.countOf_fenceCapacity f.key
  have hrecorded := h.recorded (fun k hk => (hi.rows.mem_openReport.2.mp hk).1) f.key
  rw [hi.counts] at hcount
  have hlen := hP.countOf (h.fences.symm ▸ hf)
  rw [← around_iff_of_ancestors (ancestors_of_locations h.locations leaf)] at haround
  have hassigned : (subject, leaf) ∈ t'.assignment :=
    h.assignment.symm ▸ assigned_eq_some_iff.mp hleaf
  have hlt := recorded_lt_inside hassigned haround (by
    rw [h.mem_membership, hi.rows.mem_openReport.1, hi.rows.mem_openReport.2]
    simp [hmem, hnew])
  omega

/-- A null too many. -/
theorem paysNull_of_reported (hP : FenceOccupancy t') : t.PaysNull subject new := by
  intro hentered hexited
  by_contra hneg
  refine @not_agrees_of_null F G t' subject ?_ hP.membershipOracle
  have hin : (t.openReport o subject lat lon new).entered = [] := delta_fst_eq_nil.mpr hentered
  have hout : (t.openReport o subject lat lon new).exited ≠ [] := delta_snd_eq_nil.not.mpr hexited
  rw [h.net, subject_openReport, if_pos rfl, net_reportRow_none, if_pos hin, if_neg hout]
  omega

end

/-- A new fence counts nobody. -/
theorem FenceOccupancy.of_insertFence {hid hcap}
    (hP : FenceOccupancy (t.insertFence id aligned hid hcap)) :
    ∀ a ∈ t.assignment, ∀ key ∈ t.alignedKeyOf aligned, key ∉ t.ancestors a.2 := by
  intro a ha key hkey hmem
  have hlen := hP.countOf (mem_append_right t.fences (mem_singleton_self _))
  have hzero : Tally.countOf (t.insertFence id aligned hid hcap).fenceCapacity t.nextFenceKey = 0 :=
    (countOf_new _ _ _).trans (countOf_of_find_eq_none hcap)
  rw [hzero] at hlen
  have hinside := length_eq_zero_iff.mp hlen.symm
  refine not_mem_nil (a := a.1) (hinside ▸ mem_inside.mpr (.inl ⟨a.2, ha, key, hkey, ?_⟩))
  rwa [ancestors_insertFence]

/-! ### What is admitted -/

theorem Recording.pos (hi : Recording t) (hk : (subject, k) ∈ t.membership) :
    0 < countOf t.fenceCapacity k := by
  rw [hi.counts]
  exact countP_pos_iff.mpr ⟨(subject, k), hk, beq_self_eq_true k⟩

theorem Recording.mem_of_originFences (hi : Recording t)
    (hk : k ∈ t.originFences subject) : (subject, k) ∈ t.membership := by
  obtain ⟨leaf, hleaf, hmem⟩ := mem_originFences.mp hk
  obtain ⟨f, hf, haround, rfl⟩ := mem_treeAlignedFenceKeys.mp hmem
  have hrec := hi.inside f hf _ (assigned_eq_some_iff.mp hleaf) haround
  exact (hi.rows.narrow _ hrec).symm ▸ hrec

/-- A move for which there is room. -/
theorem Recording.move_ok (hi : Recording t)
    (hnil : p.entered = [] ∧ p.exited = []) (hs : p.subjectRef ≠ "")
    (hl : t.locationByID p.toLocationID = some l) (hroom : Room t.capacity l.key)
    (hrooms : ∀ k ∈ t.treeAlignedFenceKeys l.key, k ∉ t.originFences p.subjectRef →
      Room t.fenceCapacity k) : (t.move o p).1 = .ok () := by
  rcases h : (t.move o p).1 with e | u
  · exfalso
    rcases hi.leaf.move_error_cases hnil h with ⟨hempty, -⟩ | ⟨hnone, -⟩ |
      ⟨l', hl', ⟨hfull, -⟩ | ⟨hleave, -⟩ | ⟨⟨k, hk, hold, hfull⟩, -⟩⟩
    · exact hs hempty
    · exact nomatch hnone.symm.trans hl
    · cases hl'.symm.trans hl
      exact hfull hroom
    · refine hleave (leaveAll_ok (nodup_delta ..).2 fun k hk => ?_)
      exact hi.pos (hi.mem_of_originFences (mem_delta_snd.mp hk).1)
    · cases hl'.symm.trans hl
      exact hfull (hrooms k hk hold)
  · rfl

/-- A report for which there is room. -/
theorem Recording.report_ok [LE F] [DecidableLE F] [Geometry F G] (hi : Recording t)
    (hs : subject ≠ "") (hnew : t.resolveFenceMembership lat lon = .ok new)
    (hrooms : ∀ k ∈ new, (subject, k) ∉ t.membership → Room t.fenceCapacity k) :
    (t.report o subject lat lon).1 = .ok () := by
  rcases h : (t.report o subject lat lon).1 with e | u
  · exfalso
    rcases hi.rows.report_error_cases h with ⟨hempty, -⟩ |
      ⟨new', hnew', ⟨hleave, -⟩ | ⟨⟨k, hk, hold, hfull⟩, -⟩⟩
    · exact hs hempty
    · refine hleave (leaveAll_ok (nodup_delta ..).2 fun k hk => ?_)
      exact hi.pos (hi.rows.mem_openReport.2.mp hk).1
    · cases hnew'.symm.trans hnew
      exact hfull (hrooms k hk hold)
  · rfl

/-- The move of a transaction to a leaf with room. -/
theorem LeafOccupancy.moveInTx_ok (hi : LeafOccupancy t) {tp : DxpMoveParams}
    (hl : t.locationByID tp.toLocationID = some l) (hroom : Room t.capacity l.key) :
    ∃ key, (moveInTx tp.move t).1 = .ok key := by
  rcases h : (moveInTx tp.move t).1 with e | key
  · exfalso
    rcases hi.moveInTx_error h with ⟨hnone, -⟩ | ⟨l', hl', ⟨hfull, -⟩ | ⟨k, hk, -⟩ | ⟨k, hk, -⟩⟩
    · exact nomatch hnone.symm.trans hl
    · cases hl'.symm.trans hl
      exact hfull hroom
    · cases hk
    · cases hk
  · exact ⟨key, rfl⟩

theorem FenceRows.find_nextFenceKey (hr : FenceRows t) :
    find t.fenceCapacity t.nextFenceKey = none := by
  rw [← Option.not_isSome_iff_eq_none, find_isSome_iff, hr.counters]
  exact fun h => (lt_nextKey h).ne rfl

/-- A fence whose identifier is new, aligned to a location that is there. -/
theorem FenceRows.defFence_eq (hr : FenceRows t)
    (hne : id ≠ "") (hid : t.fenceByID id = none) (haligned : t.alignedKeyOf aligned ≠ none) :
    (t.defFence id aligned).2 = t.insertFence id aligned hid hr.find_nextFenceKey := by
  unfold defFence
  rw [if_neg hne, dif_pos hid, if_neg fun h => haligned h.2, dif_pos hr.find_nextFenceKey]

end Tables

/-! ### Runs -/

/-- A move that names no fences. -/
def LocCmd.NamesNoFence {F G : Type} : LocCmd F G → Prop
  | .move _ p => p.entered = [] ∧ p.exited = []
  | _ => True

instance {F G : Type} : DecidablePred (LocCmd.NamesNoFence (F := F) (G := G))
  | .move .. => inferInstanceAs (Decidable (_ ∧ _))
  | .defLocation .. | .patch .. | .defFence .. | .setFenceGeometry .. | .setFenceCeiling ..
  | .report .. | .reserve .. | .validate .. | .execute .. | .postCommit .. | .release ..
  | .confirmTxn .. | .releaseTxn .. | .tick .. => .isTrue trivial

namespace LocSite

variable {F G : Type} [LE F] [DecidableLE F] [Geometry F G]

/-- A move for which there is room stays in the same aligned fences, and the subject is
recorded in those around the destination, also where a transaction moves it.  A report for
which there is room drops no fence around the leaf of the subject and leaves no null.  A new
fence is around no subject. -/
def Steady (s : LocSite F G) : LocCmd F G → Prop
  | .move _ p => p.subjectRef ≠ "" → ∀ l ∈ s.tables.locationByID p.toLocationID,
    Room s.tables.capacity l.key →
    (∀ k ∈ s.tables.treeAlignedFenceKeys l.key, k ∉ s.tables.originFences p.subjectRef →
      Room s.tables.fenceCapacity k) → s.tables.StaysRecorded p.subjectRef l.key
  | .execute c => ∀ tp ∈ s.pending (claimKey c), ∀ l ∈ s.tables.locationByID tp.toLocationID,
    Room s.tables.capacity l.key → s.tables.RecordedAround tp.subjectRef l.key
  | .report _ subject lat lon => subject ≠ "" →
    ∀ new ∈ (s.tables.resolveFenceMembership lat lon).toOption,
    (∀ k ∈ new, (subject, k) ∉ s.tables.membership → Room s.tables.fenceCapacity k) →
    s.tables.KeepsAround subject new ∧ s.tables.PaysNull subject new
  | .defFence id aligned => id ≠ "" → s.tables.fenceByID id = none →
    ∀ a ∈ s.tables.assignment, ∀ key ∈ s.tables.alignedKeyOf aligned, key ∉ s.tables.ancestors a.2
  | _ => True

instance (s : LocSite F G) : DecidablePred s.Steady
  | .move .. => inferInstanceAs (Decidable (_ → ∀ _ ∈ _, _ → (∀ _ ∈ _, _ → _) → _))
  | .execute _ => inferInstanceAs (Decidable (∀ _ ∈ _, ∀ _ ∈ _, _ → _))
  | .report .. => inferInstanceAs (Decidable (_ → ∀ _ ∈ _, (∀ _ ∈ _, _ → _) → _))
  | .defFence .. => inferInstanceAs (Decidable (_ → _ → ∀ _ ∈ _, ∀ _ ∈ _, _))
  | .defLocation .. | .patch .. | .setFenceGeometry .. | .setFenceCeiling ..
  | .reserve .. | .validate .. | .postCommit .. | .release .. | .confirmTxn .. | .releaseTxn ..
  | .tick .. => .isTrue trivial

variable [BEq F]

/-- The move of a transaction to a leaf with room is made. -/
theorem exists_moved_execute {s : LocSite F G} (hi : s.tables.LeafOccupancy) {c : Dxp.Claim}
    {tp : DxpMoveParams} {l : Location F} (htp : s.pending (claimKey c) = some tp)
    (hl : s.tables.locationByID tp.toLocationID = some l) (hroom : Room s.tables.capacity l.key) :
    ∃ l', s.tables.Moved tp.move l' (s.step (.execute c)).tables := by
  obtain ⟨key, hok⟩ := hi.moveInTx_ok hl hroom
  obtain ⟨l', h⟩ := moved_of_moveInTx hok
  refine ⟨l', ?_⟩
  change s.tables.Moved tp.move l' (s.execute c).2.tables
  unfold execute
  rw [htp]
  have heq := atomically_ok ((fst_atomically _ _).trans hok)
  rw [heq] at h
  exact h

theorem recording_step (s : LocSite F G) (c : LocCmd F G) (hi : s.tables.Recording)
    (hc : c.NamesNoFence) (hsteady : s.Steady c) : (s.step c).tables.Recording := by
  have hchange := (s.change_step c).1
  generalize (s.step c).tables = t' at hchange
  cases hchange with
  | upkeep h => exact hi.upkeep h
  | location hid hcap => exact hi.insertLocation
  | fence hne hid hcap => exact hi.insertFence (hsteady hne hid)
  | moved hs hp h =>
    obtain ⟨hl, hentered, hexited⟩ := h.of_withDelta hc hp
    obtain ⟨⟨hsubject, -⟩, -⟩ := withDelta_spec hp
    obtain ⟨rows, henter, -⟩ := h.capacity
    have hrooms := h.enterAll_ok
    rw [entered, exited, hentered, hexited, elems_slice, elems_slice,
      enterAll_delta_ok_iff] at hrooms
    obtain ⟨hin, hout, hrec⟩ := hsteady hs _ hl (exists_of_enter henter) hrooms
    rw [delta_fst_eq_nil.mpr hin] at hentered
    rw [delta_snd_eq_nil.mpr hout] at hexited
    exact hi.moved h hentered hexited (hsubject.symm ▸ hrec)
  | executed hp h =>
    refine hi.moved h rfl rfl (hsteady _ hp _ h.destination ?_)
    obtain ⟨rows, henter, -⟩ := h.capacity
    exact exists_of_enter henter
  | reported hs hnew h =>
    have hrooms := enterAll_delta_ok_iff.mp h.enterAll_ok
    simp only [hi.rows.mem_currentFenceKeys] at hrooms
    obtain ⟨hkeeps, hpays⟩ := hsteady hs _ (by rw [hnew]; rfl) hrooms
    exact hi.reported (narrow_of_resolve hnew) h hkeeps hpays

/-- Where the counts and the oracles are right after a step, the step was steady. -/
theorem steady_of_fenceOccupancy (s : LocSite F G) (c : LocCmd F G) (hi : s.tables.Recording)
    (hc : c.NamesNoFence) (hP : (s.step c).tables.FenceOccupancy) : s.Steady c := by
  cases c with
  | move o p =>
    intro hs l hl hroom hrooms
    have hok := hi.move_ok (o := o) hc hs hl hroom hrooms
    obtain ⟨-, p', l', hp', h⟩ := move_spec hok
    obtain ⟨hl', -⟩ := h.of_withDelta hc hp'
    cases hl'.symm.trans hl
    exact hi.staysRecorded hc hp' h hP
  | execute c =>
    intro tp htp l hl hroom
    obtain ⟨l', h⟩ := exists_moved_execute hi.leaf htp hl hroom
    cases h.destination.symm.trans hl
    exact hi.recordedAround h hP rfl rfl
  | report o subject lat lon =>
    intro hs new hnew hrooms
    have hnew : s.tables.resolveFenceMembership lat lon = .ok new := by
      cases h : s.tables.resolveFenceMembership lat lon <;> simp_all [Except.toOption]
    have hok := hi.report_ok (o := o) hs hnew hrooms
    obtain ⟨-, new', hnew', hcases⟩ := report_spec hok
    cases hnew'.symm.trans hnew
    rcases hcases with ⟨hexited, -⟩ | h
    · have hall := delta_snd_eq_nil.mp hexited
      refine ⟨fun f _ hmem hdrop => ?_, fun _ hsome => absurd hall hsome⟩
      exact absurd (hall _ (hi.rows.mem_currentFenceKeys.mpr hmem)) hdrop
    · exact ⟨hi.keepsAround h hP, paysNull_of_reported h hP⟩
  | defFence id aligned =>
    intro hne hid a ha key hkey
    have heq := hi.rows.defFence_eq hne hid (Option.ne_none_iff_exists'.mpr ⟨key, hkey⟩)
    change (s.tables.defFence id aligned).2.FenceOccupancy at hP
    rw [heq] at hP
    exact hP.of_insertFence a ha key hkey
  | defLocation _ | patch _ _ | setFenceGeometry _ _ | setFenceCeiling _ _ | reserve _ _ _ _ _ _
  | validate _ | postCommit _ | release _ | confirmTxn _ | releaseTxn _ | tick _ => trivial

/-- **Fences count the subjects inside.**  In a run whose moves name no fences, the counts and
the oracles are right after every step exactly if every step is steady. -/
theorem fence_occupancy_iff (tenant : String) (now : Int) (cmds : List (LocCmd F G))
    (hcmds : ∀ c ∈ cmds, c.NamesNoFence) : Along step (fun s c => (s.step c).tables.FenceOccupancy)
    (init tenant now) cmds ↔ Along step Steady (init tenant now) cmds := by
  refine along_iff_of_invariant (I := fun s : LocSite F G => s.tables.Recording)
    (N := fun _ c => c.NamesNoFence) recording_step (fun s c hi hc => ?_)
    recording_empty (.of_forall fun c hc _ => hcmds c hc)
  exact ⟨steady_of_fenceOccupancy s c hi hc,
    fun hsteady => (recording_step s c hi hc hsteady).fenceOccupancy⟩

/-- A subject is recorded in the zone, a transaction takes it into the room and out again, and
a report ends the record. -/
def recordedVisit : List (LocCmd Int (Box Int)) :=
  smallSite ++ [.setFenceGeometry "zone" ⟨0, 0, 9, 9⟩, .report .asCollected "s" 5 5] ++
    transact "room" ++ [walk "room"] ++ transact "site" ++ [.report .asCollected "s" 20 20]

theorem fence_occupancy_recordedVisit :
    Along step (fun s c => (s.step c).tables.FenceOccupancy) (init "t" 0) recordedVisit :=
  (fence_occupancy_iff "t" 0 recordedVisit (by decide +kernel)).mpr (by decide +kernel)

/-- A walk into the room is in the journal and is not recorded; the move of a transaction into
the room is not even counted. -/
theorem room_not_recorded :
    ¬ (run step (init "t" 0) (smallSite ++ [walk "room"])).tables.FenceOccupancy ∧
    ¬ (run step (init "t" 0) (smallSite ++ transact "room")).tables.FenceOccupancy := by
  constructor
  · intro h
    exact absurd h.membershipOracle (by decide +kernel)
  · intro h
    have hcountOf := h.countOf (f := ⟨1, "zone", some 2, none⟩) (by decide +kernel)
    exact absurd hcountOf (by decide +kernel)

end LocSite

end Xolu.Loc
