/-
# The rebuild oracles (pkg/loc/verify.go)

Each oracle derives a table from the journal and compares its fingerprint with that of the
table.  Where a subject is follows from its latest move; which fences it is in is a net of
entries and exits, a fence key at a time.  The lists of keys are read with json_each, which
makes of a null a row whose key is NULL, and a group with such a key cannot be scanned.

The oracles for locations agree in every state (`leafOracles_agree`).  For those of the fences
`fenceOracles_agree` says what they rest on.
-/
import Xolu.Loc.Leaf
import Xolu.Lib.Fingerprint
import Mathlib.Data.List.Count
import Mathlib.Data.List.Induction

namespace Xolu.Loc

open List Fingerprint Keyed Runs Tally JournalRow

variable {F G : Type}

/-! ### Fingerprints -/

/-- The lines of an assignment or a membership. -/
def memberLines (rows : List (String × Nat)) : String := ofLines (rows.map fun r => s!"{r.1} {r.2}")

/-- The lines of counts. -/
def countLines (rows : List (Nat × Nat)) : String := ofLines (rows.map fun r => s!"{r.1} {r.2}")

variable (rows : List (String × Option Nat))

/-- The derived side of a membership; a key that is NULL cannot be scanned. -/
def deriveMembers : Option String :=
  (scan (fun r => r.2.map fun k => (r.1, k)) rows).map memberLines

/-- The derived side of counts: the rows grouped by their key. -/
def deriveCounts : Option String :=
  (scan (fun r => r.1.map fun k => (k, r.2)) (groupCount (rows.map Prod.snd))).map countLines

/-- The counts that are not zero. -/
def counterLines (rows : List (Counter Nat)) : String :=
  countLines ((rows.filter (0 < ·.count)).map fun c => (c.key, c.count))

/-! ### The oracles -/

/-- The latest move of each subject. -/
def lastMoves (journal : List (JournalRow F)) : List (String × Option Nat) :=
  ((journal.filter (·.kind = .move)).map subjectRef).dedup.map fun subject =>
    (subject, lastMove journal subject)

/-- `json_each` over a list of keys. -/
def jsonEach : Option (List Nat) → List (Option Nat)
  | none => [none]
  | some keys => keys.map some

/-- What a row adds to the net of a key. -/
def JournalRow.net (r : JournalRow F) (k : Option Nat) : Int :=
  (jsonEach r.enteredFenceKeys).count k - (jsonEach r.exitedFenceKeys).count k

section

variable (journal : List (JournalRow F))

/-- The net of a subject and a key, `SUM(delta)`. -/
def net (subject : String) (k : Option Nat) : Int :=
  ((journal.filter (·.subjectRef = subject)).map (·.net k)).sum

/-- The subjects and keys that the journal names. -/
def fencePairs : List (String × Option Nat) :=
  (journal.flatMap fun r =>
    (jsonEach r.enteredFenceKeys ++ jsonEach r.exitedFenceKeys).map (r.subjectRef, ·)).dedup

/-- `fenceMembershipFoldSQL`. -/
def fenceMembershipFold : List (String × Option Nat) :=
  (fencePairs journal).filter fun m => 0 < net journal m.1 m.2

end

/-- `RebuildOracle`; deriving may fail. -/
structure Oracle where
  derive : Option String
  current : String
deriving DecidableEq, Repr

/-- Both sides are there and equal. -/
def Oracle.Agrees (o : Oracle) : Prop := o.derive = some o.current
deriving Decidable

namespace Tables

variable (t : Tables F G)

def assignmentFoldOracle : Oracle := ⟨deriveMembers (lastMoves t.journal), memberLines t.assignment⟩

def occupancyFoldOracle : Oracle := ⟨deriveCounts (lastMoves t.journal), counterLines t.capacity⟩

def fenceMembershipFoldOracle : Oracle :=
  ⟨deriveMembers (fenceMembershipFold t.journal), memberLines t.membership⟩

def fenceOccupancyFoldOracle : Oracle :=
  ⟨deriveCounts (fenceMembershipFold t.journal), counterLines t.fenceCapacity⟩

end Tables

/-! ### When both sides agree -/

section

variable {rows : List (String × Option Nat)} {members : List (String × Nat)}
  {counters : List (Counter Nat)}

/-- The rows read the members back. -/
theorem deriveMembers_eq (h : rows.Perm (members.map fun m => (m.1, some m.2))) :
    deriveMembers rows = some (memberLines members) := by
  obtain ⟨ys, hscan, hperm⟩ :=
    scan_of_perm (f := fun r : String × Option Nat => r.2.map fun k => (r.1, k)) (fun _ => rfl) h
  unfold deriveMembers memberLines
  rw [hscan, Option.map_some]
  exact congrArg some (ofLines_perm (hperm.map _))

/-- A row with the key NULL fails the whole. -/
theorem deriveMembers_of_null {subject : String} (h : (subject, none) ∈ rows) :
    deriveMembers rows = none := by
  unfold deriveMembers
  rw [scan_eq_none h rfl, Option.map_none]

variable {m : String × Nat}

/-- What is read of the rows. -/
theorem mem_filterMap_rows :
    m ∈ rows.filterMap (fun r => r.2.map fun k => (r.1, k)) ↔ (m.1, some m.2) ∈ rows := by
  rw [mem_filterMap]
  constructor
  · rintro ⟨⟨s, k⟩, hmem, hr⟩
    obtain ⟨n, rfl, rfl⟩ := Option.map_eq_some_iff.mp hr
    exact hmem
  · exact fun hmem => ⟨_, hmem, rfl⟩

theorem nodup_filterMap_rows (h : rows.Nodup) :
    (rows.filterMap fun r => r.2.map fun k => (r.1, k)).Nodup := by
  refine h.filterMap fun r r' m hr hr' => ?_
  obtain ⟨n, hn, rfl⟩ := Option.map_eq_some_iff.mp hr
  obtain ⟨n', hn', heq⟩ := Option.map_eq_some_iff.mp hr'
  obtain ⟨hs, hk⟩ := Prod.mk.inj heq
  exact Prod.ext hs.symm (by rw [hn, hn', hk])

/-- Rows with all the members and more do not have their fingerprint. -/
theorem deriveMembers_ne (hrows : rows.Nodup) (hmembers : members.Nodup)
    (hsub : ∀ m ∈ members, (m.1, some m.2) ∈ rows) (hmore : (m.1, some m.2) ∈ rows)
    (hnot : m ∉ members) : deriveMembers rows ≠ some (memberLines members) := by
  unfold deriveMembers scan
  split_ifs with hall
  · -- what is read is the members and some extra
    have hperm : (rows.filterMap fun r => r.2.map fun k => (r.1, k)).Perm
        (members ++ (rows.filterMap fun r => r.2.map fun k => (r.1, k)).filter (· ∉ members)) := by
      have hextra := (nodup_filterMap_rows hrows).filter (· ∉ members)
      refine (perm_ext_iff_of_nodup (nodup_filterMap_rows hrows) ?_).mpr fun x => ?_
      · refine nodup_append'.mpr ⟨hmembers, hextra, fun x hx hx' => ?_⟩
        exact of_decide_eq_true (mem_filter.mp hx').2 hx
      · rw [mem_append, mem_filter, decide_eq_true_eq, mem_filterMap_rows]
        by_cases hx : x ∈ members
        · exact iff_of_true (hsub x hx) (.inl hx)
        · simp [hx]
    rw [Option.map_some, ne_eq, Option.some.injEq]
    have hlines := hperm.map fun r : String × Nat => s!"{r.1} {r.2}"
    rw [map_append] at hlines
    refine ofLines_ne_of_more hlines ?_ ?_
    · refine ne_nil_of_mem (mem_map_of_mem (mem_filter.mpr ⟨?_, ?_⟩) (a := m))
      · exact mem_filterMap_rows.mpr hmore
      · exact decide_eq_true hnot
    · intro x hx hempty
      obtain ⟨r, -, rfl⟩ := mem_map.mp hx
      have hlen := congrArg String.length hempty
      simp [toString] at hlen
  · exact fun h => nomatch h

/-- The rows of `counterLines`. -/
theorem mem_counterRows (hu : UniqueKey Counter.key counters) {k n : Nat} :
    (k, n) ∈ (counters.filter (0 < ·.count)).map (fun c => (c.key, c.count)) ↔
      0 < n ∧ n = countOf counters k := by
  simp only [mem_map, mem_filter, decide_eq_true_eq, Prod.mk.injEq]
  constructor
  · rintro ⟨c, ⟨hmem, hpos⟩, rfl, rfl⟩
    exact ⟨hpos, (countOf_of_mem hu hmem).symm⟩
  · rintro ⟨hpos, hn⟩
    obtain ⟨c, hmem, hkey, hcount⟩ := exists_of_countOf_pos (hn ▸ hpos)
    exact ⟨c, ⟨hmem, hcount ▸ hn ▸ hpos⟩, hkey, hcount.trans hn.symm⟩

/-- How often a key is among the keys of the members. -/
theorem countP_keys (h : rows.Perm (members.map fun m => (m.1, some m.2))) (k : Option Nat) :
    (rows.map Prod.snd).countP (fun j => decide (j = k)) =
      k.elim 0 fun k => members.countP fun m => m.2 == k := by
  rw [(h.map Prod.snd).countP_eq, map_map, countP_map]
  cases k with
  | none => exact countP_eq_zero.mpr fun m _ => by simp
  | some k => exact countP_congr fun m _ => by simp

/-- The groups of the members are the counters that count them. -/
theorem deriveCounts_eq (h : rows.Perm (members.map fun m => (m.1, some m.2)))
    (hu : UniqueKey Counter.key counters)
    (hcount : ∀ k, countOf counters k = members.countP fun m => m.2 == k) :
    deriveCounts rows = some (counterLines counters) := by
  have hperm : (groupCount (rows.map Prod.snd)).Perm
      (((counters.filter (0 < ·.count)).map fun c => (c.key, c.count)).map
        fun c => (some c.1, c.2)) := by
    refine (perm_ext_iff_of_nodup (nodup_groupCount _) ?_).mpr fun g => ?_
    · apply Nodup.of_map fun g => g.1.getD 0
      rw [map_map, map_map]
      exact hu.sublist (filter_sublist.map _)
    · obtain ⟨k, n⟩ := g
      rw [mem_groupCount, countP_keys h]
      cases k with
      | none => simp [Nat.pos_iff_ne_zero]
      | some k =>
        rw [Option.elim_some, ← hcount, ← mem_counterRows hu]
        exact (mem_map_of_injective (f := fun c : Nat × Nat => (some c.1, c.2))
          fun a b hab => by simpa [Prod.ext_iff] using hab).symm
  obtain ⟨ys, hscan, hys⟩ :=
    scan_of_perm (f := fun r : Option Nat × Nat => r.1.map fun k => (k, r.2)) (fun _ => rfl) hperm
  unfold deriveCounts counterLines countLines
  rw [hscan, Option.map_some]
  exact congrArg some (ofLines_perm (hys.map _))

end

/-! ### The oracles for locations -/

section

variable {journal : List (JournalRow F)} {subject : String}
  (h : ∀ r ∈ journal, r.kind = .move → r.toLocationKey.isSome)

include h

/-- A subject has a latest move if it has a move. -/
theorem lastMove_isSome_iff : (lastMove journal subject).isSome ↔
      subject ∈ (journal.filter (·.kind = .move)).map subjectRef := by
  induction journal using reverseRecOn with
  | nil => simp [lastMove]
  | append_singleton journal r ih =>
    simp only [mem_append, mem_singleton, or_imp, forall_and, forall_eq] at h
    rw [lastMove_append, filter_append, map_append, mem_append, ← ih h.1]
    by_cases hr : r.kind = .move
    · by_cases hs : r.subjectRef = subject
      · simp [hr, hs, h.2 hr]
      · simp [hr, hs, Ne.symm hs]
    · simp [hr]

theorem mem_lastMoves {k : Option Nat} : (subject, k) ∈ lastMoves journal ↔
      (lastMove journal subject).isSome ∧ lastMove journal subject = k := by
  rw [lastMove_isSome_iff h, lastMoves, mem_map]
  constructor
  · rintro ⟨s, hs, heq⟩
    cases heq
    exact ⟨mem_dedup.mp hs, rfl⟩
  · rintro ⟨hs, rfl⟩
    exact ⟨subject, mem_dedup.mpr hs, rfl⟩

end

namespace Tables

variable {t t' : Tables F G}

theorem lastMoves_perm (hi : t.LeafOccupancy) :
    (lastMoves t.journal).Perm (t.assignment.map fun a => (a.1, some a.2)) := by
  refine (perm_ext_iff_of_nodup ?_ ?_).mpr fun m => ?_
  · exact (nodup_dedup _).map fun _ _ h => congrArg Prod.fst h
  · apply Nodup.of_map Prod.fst
    rw [map_map]
    exact t.assignmentKeys
  · obtain ⟨subject, k⟩ := m
    rw [mem_lastMoves hi.moves, ← hi.latest]
    constructor
    · rintro ⟨hsome, rfl⟩
      obtain ⟨n, hn⟩ := Option.isSome_iff_exists.mp hsome
      exact mem_map.mpr ⟨(subject, n), assigned_eq_some_iff.mp hn, by rw [hn]⟩
    · intro hm
      obtain ⟨a, ha, heq⟩ := mem_map.mp hm
      cases heq
      have hassigned := assigned_eq_some_iff.mpr ha
      exact ⟨Option.isSome_of_eq_some hassigned, hassigned⟩

/-- **The oracles for locations** agree. -/
theorem leafOracles_agree (hi : t.LeafOccupancy) :
    t.assignmentFoldOracle.Agrees ∧ t.occupancyFoldOracle.Agrees :=
  ⟨deriveMembers_eq (lastMoves_perm hi),
    deriveCounts_eq (lastMoves_perm hi) t.capacityKeys hi.counts⟩

end Tables

/-- In every state of every run the oracles for locations agree. -/
theorem LocSite.leafOracles_run [BEq F] [LE F] [DecidableLE F] [Geometry F G] (tenant : String)
    (now : Int) (cmds : List (LocCmd F G)) :
    let t := (run step (init tenant now) cmds).tables
    t.assignmentFoldOracle.Agrees ∧ t.occupancyFoldOracle.Agrees :=
  Tables.leafOracles_agree (leafOccupancy_run tenant now cmds)

/-! ### The oracles for fences -/

section

variable {journal : List (JournalRow F)} {subject : String} {k : Option Nat}

theorem net_append (rows : List (JournalRow F)) :
    net (journal ++ rows) subject k = net journal subject k + net rows subject k := by
  unfold net
  rw [filter_append, map_append, sum_append]

theorem net_singleton (r : JournalRow F) :
    net [r] subject k = if r.subjectRef = subject then r.net k else 0 := by
  unfold net
  split_ifs with h <;> simp [h]

/-- A row whose lists are the same adds nothing. -/
theorem JournalRow.net_eq_zero {r : JournalRow F} (h : r.enteredFenceKeys = r.exitedFenceKeys)
    (k : Option Nat) : r.net k = 0 := by
  unfold net
  rw [h, sub_self]

theorem net_eq_zero {rows : List (JournalRow F)}
    (h : ∀ r ∈ rows, r.enteredFenceKeys = r.exitedFenceKeys) : net rows subject k = 0 := by
  refine sum_eq_zero fun x hx => ?_
  obtain ⟨r, hr, rfl⟩ := mem_map.mp hx
  exact JournalRow.net_eq_zero (h r (mem_filter.mp hr).1) k

theorem count_jsonEach (keys : Option (List Nat)) (k : Nat) :
    (jsonEach keys).count (some k) = (elems keys).count k := by
  cases keys with
  | none => rfl
  | some keys => exact count_map_of_injective keys some (Option.some_injective _) k

theorem count_none_jsonEach (keys : List Nat) :
    (jsonEach (slice keys)).count none = if keys = [] then 1 else 0 := by
  unfold slice
  split_ifs
  · rfl
  · refine count_eq_zero.mpr fun h => ?_
    obtain ⟨k, -, hk⟩ := mem_map.mp h
    cases hk

/-- What a row adds to the net of a fence: its entries and exits. -/
theorem JournalRow.net_some (r : JournalRow F) (k : Nat) :
    r.net (some k) = (elems r.enteredFenceKeys).count k - (elems r.exitedFenceKeys).count k := by
  unfold net
  rw [count_jsonEach, count_jsonEach]

/-- The fold has the subjects and keys of positive net. -/
theorem mem_fenceMembershipFold :
    (subject, k) ∈ fenceMembershipFold journal ↔ 0 < net journal subject k := by
  unfold fenceMembershipFold
  rw [mem_filter, decide_eq_true_eq, and_iff_right_iff_imp]
  intro hpos
  by_contra hpair
  -- a row of the subject that does not name the key adds nothing
  have hzero : net journal subject k = 0 := by
    refine sum_eq_zero fun x hx => ?_
    obtain ⟨r, hr, rfl⟩ := mem_map.mp hx
    obtain ⟨hmem, hs⟩ := mem_filter.mp hr
    have hnot : k ∉ jsonEach r.enteredFenceKeys ++ jsonEach r.exitedFenceKeys := fun hk =>
      hpair (mem_dedup.mpr (mem_flatMap.mpr ⟨r, hmem, mem_map.mpr
        ⟨k, hk, Prod.ext (of_decide_eq_true hs) rfl⟩⟩))
    rw [mem_append, not_or] at hnot
    unfold JournalRow.net
    rw [count_eq_zero_of_not_mem hnot.1, count_eq_zero_of_not_mem hnot.2]
    rfl
  exact hpos.ne' hzero

theorem nodup_fenceMembershipFold (journal : List (JournalRow F)) :
    (fenceMembershipFold journal).Nodup :=
  (nodup_dedup _).filter _

end

namespace Tables

variable {t : Tables F G}

/-- **The oracles for fences** agree if the nets are those of the membership and the counters
count it. -/
theorem fenceOracles_agree (hnet : ∀ subject k,
      0 < net t.journal subject k ↔ ∃ n, k = some n ∧ (subject, n) ∈ t.membership)
    (hcount : ∀ k, countOf t.fenceCapacity k = t.membership.countP fun m => m.2 == k) :
    t.fenceMembershipFoldOracle.Agrees ∧ t.fenceOccupancyFoldOracle.Agrees := by
  have hperm : (fenceMembershipFold t.journal).Perm
      (t.membership.map fun m => (m.1, some m.2)) := by
    refine (perm_ext_iff_of_nodup ?_ ?_).mpr fun m => ?_
    · exact nodup_fenceMembershipFold t.journal
    · exact t.membershipKeys.map fun a b hab => by simpa [Prod.ext_iff] using hab
    · obtain ⟨subject, k⟩ := m
      rw [mem_fenceMembershipFold, hnet, mem_map]
      constructor
      · rintro ⟨n, rfl, hmem⟩
        exact ⟨(subject, n), hmem, rfl⟩
      · rintro ⟨m, hmem, heq⟩
        cases heq
        exact ⟨m.2, rfl, hmem⟩
  exact ⟨deriveMembers_eq hperm, deriveCounts_eq hperm t.fenceCapacityKeys hcount⟩

/-- Entries for which there is no record are seen. -/
theorem not_agrees_of_net (hsub : ∀ m ∈ t.membership, 0 < net t.journal m.1 (some m.2))
    {m : String × Nat} (hmore : 0 < net t.journal m.1 (some m.2)) (hnot : m ∉ t.membership) :
    ¬ t.fenceMembershipFoldOracle.Agrees :=
  deriveMembers_ne (nodup_fenceMembershipFold t.journal) t.membershipKeys
    (fun m hm => mem_fenceMembershipFold.mpr (hsub m hm)) (mem_fenceMembershipFold.mpr hmore) hnot

/-- A net of nulls fails the oracle. -/
theorem not_agrees_of_null {subject : String} (h : 0 < net t.journal subject none) :
    ¬ t.fenceMembershipFoldOracle.Agrees := by
  have hnone := deriveMembers_of_null (mem_fenceMembershipFold.mpr h)
  exact fun hagrees => nomatch hnone.symm.trans hagrees

end Tables

end Xolu.Loc
