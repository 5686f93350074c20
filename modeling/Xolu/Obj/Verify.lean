/-
# The rebuild oracle (pkg/obj/verify.go)

The oracle derives the position of each subject from the journal, its latest row that says where it
is unless its latest row of all is a detach, and compares the fingerprint with that of the table.

The transaction of a `Move` writes its journal row even if its update matches no row.  That is so
once the subject is detached between the reads of the call and its transaction, and then the
journal has a position for a subject that has none: `folds_iff` says that the oracle agrees as long
as this does not happen, and not afterwards.
-/
import Xolu.Obj.Forest
import Xolu.Loc.Verify

namespace Xolu.Obj

open Function List Dxp Fingerprint Keyed Runs Position Tables
open Loc (Oracle)

/-! ### The oracle -/

/-- The columns that `foldFingerprint` scans. -/
structure FoldRow where
  subjectRef : String
  positionKind : Option PositionKind
  locLeafID : Option String
  containerRef : Option String
deriving DecidableEq, Repr

/-- The columns of a journal row. -/
def JournalRow.fold (r : JournalRow) : FoldRow :=
  ⟨r.subjectRef, r.positionKind, r.locLeafID, r.containerRef⟩

/-- The columns of a position. -/
def Position.fold (p : Position) : FoldRow :=
  ⟨p.subjectRef, some p.kind, p.locLeafID, p.containsRef⟩

/-- A line of the fingerprint. -/
def foldLine (subjectRef : String) (kind : PositionKind) (locLeafID containerRef : Option String) :
    String :=
  subjectRef ++ " " ++ kind.name ++ " " ++ locLeafID.getD "-" ++ " " ++ containerRef.getD "-"

/-- The line of a row; a kind that is NULL cannot be scanned. -/
def FoldRow.line (r : FoldRow) : Option String :=
  r.positionKind.map fun kind => foldLine r.subjectRef kind r.locLeafID r.containerRef

/-- The line of a position. -/
def Position.line (p : Position) : String := foldLine p.subjectRef p.kind p.locLeafID p.containsRef

section

variable (journal : List JournalRow)

/-- The row of `latest_position` with number 1. -/
def latestPosition (subject : String) : Option JournalRow :=
  (journal.filter fun r => r.subjectRef = subject ∧ r.kind.positions).getLast?

/-- The row of `latest_overall` with number 1. -/
def latestOverall (subject : String) : Option JournalRow :=
  (journal.filter (·.subjectRef = subject)).getLast?

/-- The row that is derived for a subject. -/
def derivedRow (subject : String) : Option JournalRow :=
  if (latestOverall journal subject).any (·.kind ≠ .detach) then latestPosition journal subject
  else none

/-- The rows that are derived. -/
def derivedRows : List FoldRow :=
  ((journal.filter (·.kind.positions)).map JournalRow.subjectRef).dedup.filterMap fun subject =>
    (derivedRow journal subject).map JournalRow.fold

end

/-- The positions derived from the journal, beside the positions stored. -/
def Tables.positionFoldOracle {F : Type} (t : Tables F) : Oracle where
  derive := (scan FoldRow.line (derivedRows t.journal)).map ofLines
  current := ofLines (t.positions.map line)

/-! ### Rows appended to the journal -/

section

variable {journal : List JournalRow} {row r : JournalRow} {subject : String}

/-- The last row that is looked for, after one more row. -/
theorem getLast?_filter_concat (p : JournalRow → Prop) [DecidablePred p] :
    ((journal ++ [row]).filter p).getLast? =
      if p row then some row else (journal.filter p).getLast? := by
  rw [filter_append]
  split_ifs with h
  · rw [filter_cons_of_pos (by simpa using h), filter_nil, getLast?_concat]
  · rw [filter_cons_of_neg (by simpa using h), filter_nil, append_nil]

theorem latestPosition_append : latestPosition (journal ++ [row]) subject =
    if row.subjectRef = subject ∧ row.kind.positions then some row
    else latestPosition journal subject :=
  getLast?_filter_concat fun r => r.subjectRef = subject ∧ r.kind.positions

theorem latestOverall_append : latestOverall (journal ++ [row]) subject =
    if row.subjectRef = subject then some row else latestOverall journal subject :=
  getLast?_filter_concat fun r => r.subjectRef = subject

theorem derivedRow_append_of_ne (h : row.subjectRef ≠ subject) :
    derivedRow (journal ++ [row]) subject = derivedRow journal subject := by
  have hoverall : latestOverall (journal ++ [row]) subject = latestOverall journal subject := by
    rw [latestOverall_append, if_neg h]
  have hposition : latestPosition (journal ++ [row]) subject = latestPosition journal subject := by
    rw [latestPosition_append, if_neg fun h' => h h'.1]
  rw [derivedRow, hoverall, hposition, derivedRow]

/-- A row that says where the subject is. -/
theorem derivedRow_append_of_positions (h : row.kind.positions = true) :
    derivedRow (journal ++ [row]) row.subjectRef = some row := by
  have hkind : row.kind ≠ .detach := fun hd => by
    rw [hd] at h
    cases h
  have hposition : latestPosition (journal ++ [row]) row.subjectRef = some row := by
    rw [latestPosition_append, if_pos ⟨rfl, h⟩]
  rw [derivedRow, latestOverall_append, if_pos rfl, hposition, if_pos]
  simpa using hkind

theorem derivedRow_append_of_detach (h : row.kind = .detach) :
    derivedRow (journal ++ [row]) row.subjectRef = none := by
  rw [derivedRow, latestOverall_append, if_pos rfl, if_neg]
  simp [h]

/-- A retired subject stays where it is. -/
theorem derivedRow_append_of_retire (h : row.kind = .retire)
    (hsome : (derivedRow journal row.subjectRef).isSome) :
    derivedRow (journal ++ [row]) row.subjectRef = derivedRow journal row.subjectRef := by
  have hbefore : derivedRow journal row.subjectRef = latestPosition journal row.subjectRef := by
    unfold derivedRow at hsome ⊢
    split_ifs at hsome ⊢ with hany
    · rfl
    · cases hsome
  rw [hbefore, derivedRow, latestOverall_append, latestPosition_append, if_pos rfl,
    if_pos (by simp [h]), if_neg]
  rintro ⟨-, hpositions⟩
  rw [h] at hpositions
  cases hpositions

theorem mem_of_derivedRow (h : derivedRow journal subject = some r) : r.subjectRef = subject ∧
      subject ∈ (journal.filter (·.kind.positions)).map JournalRow.subjectRef := by
  unfold derivedRow at h
  split_ifs at h
  have hmem := mem_filter.mp (mem_of_getLast? h)
  simp only [decide_eq_true_eq] at hmem
  obtain ⟨hr, rfl, hpositions⟩ := hmem
  exact ⟨rfl, mem_map.mpr ⟨r, mem_filter.mpr ⟨hr, hpositions⟩, rfl⟩⟩

end

/-! ### When both sides agree -/

/-- The journal says of each subject what a table of positions says. -/
def FoldsTo (journal : List JournalRow) (position : String → Option Position) : Prop :=
  ∀ subject, (derivedRow journal subject).map JournalRow.fold = (position subject).map fold

section

variable {journal : List JournalRow} {ps : List Position}

/-- What is derived are the rows of the table. -/
theorem derivedRows_perm (hu : UniqueKey subjectRef ps)
    (h : FoldsTo journal fun x => ps.find? fun p => decide (p.subjectRef = x)) :
    (derivedRows journal).Perm (ps.map fold) := by
  have hnodup : (ps.map fold).Nodup := by
    apply List.Nodup.of_map FoldRow.subjectRef
    rw [map_map]
    exact hu
  -- neither side has a subject twice, so the members are enough
  refine (perm_ext_iff_of_nodup ?_ hnodup).mpr fun row => ?_
  · refine (nodup_dedup _).filterMap fun x y row hx hy => ?_
    obtain ⟨r, hr, rfl⟩ := Option.map_eq_some_iff.mp hx
    obtain ⟨r', hr', heq⟩ := Option.map_eq_some_iff.mp hy
    rw [← (mem_of_derivedRow hr).1, ← (mem_of_derivedRow hr').1]
    exact (congrArg FoldRow.subjectRef heq).symm
  · rw [derivedRows, mem_filterMap, mem_map]
    constructor
    · rintro ⟨x, -, hx⟩
      rw [h x] at hx
      obtain ⟨p, hp, rfl⟩ := Option.map_eq_some_iff.mp hx
      exact ⟨p, mem_of_find?_eq_some hp, rfl⟩
    · rintro ⟨p, hp, rfl⟩
      have hfold := h p.subjectRef
      dsimp only at hfold
      rw [hu.find?_of_mem hp, Option.map_some] at hfold
      obtain ⟨r, hr, -⟩ := Option.map_eq_some_iff.mp hfold
      exact ⟨p.subjectRef, mem_dedup.mpr (mem_of_derivedRow hr).2, hfold⟩

theorem scan_derivedRows (hu : UniqueKey subjectRef ps)
    (h : FoldsTo journal fun x => ps.find? fun p => decide (p.subjectRef = x)) :
    ∃ lines, scan FoldRow.line (derivedRows journal) = some lines ∧ lines.Perm (ps.map line) :=
  scan_of_perm_map (fun _ => rfl) (derivedRows_perm hu h)

end

namespace Tables

variable {F : Type} {t : Tables F} {ref container : String}

/-- The journal says where every subject is. -/
def Folds (t : Tables F) : Prop := FoldsTo t.journal t.position

theorem agrees_of_folds (h : t.Folds) : t.positionFoldOracle.Agrees := by
  obtain ⟨lines, hscan, hperm⟩ := scan_derivedRows t.positionKeys h
  unfold Oracle.Agrees positionFoldOracle
  rw [hscan, Option.map_some]
  exact congrArg some (ofLines_perm hperm)

variable {position : String → Option Position} {journal : List JournalRow}

theorem FoldsTo.append (h : FoldsTo journal position) (row : JournalRow) {v : Option Position}
    (hrow : (derivedRow (journal ++ [row]) row.subjectRef).map JournalRow.fold = v.map fold) :
    FoldsTo (journal ++ [row]) (update position row.subjectRef v) := by
  intro x
  by_cases hx : x = row.subjectRef
  · rw [hx, update_self]
    exact hrow
  · rw [update_of_ne hx, derivedRow_append_of_ne (Ne.symm hx)]
    exact h x

/-- A row for a position that is written. -/
theorem FoldsTo.set (h : FoldsTo journal position) (row : JournalRow) {p : Position}
    (hkind : row.kind.positions = true) (hfold : row.fold = p.fold) :
    FoldsTo (journal ++ [row]) (update position p.subjectRef (some p)) := by
  rw [← show row.subjectRef = p.subjectRef from congrArg FoldRow.subjectRef hfold]
  refine FoldsTo.append h row ?_
  rw [derivedRow_append_of_positions hkind, Option.map_some, Option.map_some, hfold]

section

variable (h : t.Folds)

include h

theorem folds_attached {capacity : Capacity F} {hnew : ¬ t.Attached ref} :
    (t.attached ref capacity hnew).Folds := by
  have hset := FoldsTo.set h (journalEntry ref .attach .unassigned "" "")
    (p := ⟨ref, .unassigned, none, none, by simp⟩) rfl rfl
  refine fun x => (hset x).trans (congrArg _ ?_)
  rw [attached, position_append, position_insert, update_apply]

theorem folds_place (hattached : t.Attached ref) (hcontainer : container ≠ "") :
    (t.place ref container).Folds := by
  have hset := FoldsTo.set h (journalEntry ref .move .obj "" container)
    (p := ⟨ref, .obj, none, some container, by simp⟩) rfl
    (by simp [journalEntry, JournalRow.fold, fold, nullableString, hcontainer,
      JournalKind.positions])
  have hjournal : (t.place ref container).journal =
      t.journal ++ [journalEntry ref .move .obj "" container] :=
    congrArg (· ++ [_]) (journal_relinquish (t := t.charge container 1))
  unfold Folds
  rw [position_place hattached, hjournal]
  exact hset

theorem folds_relocateInTx {r : Relocation} (hattached : t.Attached r.subjectRef) :
    (t.relocateInTx r).Folds := by
  have hset := FoldsTo.set h (journalEntry r.subjectRef .move r.kind r.locLeafID "")
    (p := r.position) rfl rfl
  have hposition : (t.relocateInTx r).position = update t.position r.subjectRef (some r.position) :=
    position_setPosition (p := r.position) hattached
  unfold Folds
  rw [hposition]
  exact hset

theorem folds_detached : (t.detached ref).Folds := by
  have happend := FoldsTo.append h (journalEntry ref .detach .unassigned "" "") (v := none)
    (by rw [derivedRow_append_of_detach rfl]; rfl)
  unfold Folds
  rw [show (t.detached ref).position = _ from position_remove]
  exact happend

theorem folds_retired (hattached : t.Attached ref) : (t.retired ref).Folds := by
  have hsome : (derivedRow t.journal ref).isSome := by
    obtain ⟨p, hp⟩ := hattached.exists_position
    have hfold := h ref
    rw [hp] at hfold
    exact Option.isSome_map ▸ Option.isSome_of_eq_some hfold
  have happend := FoldsTo.append h (journalEntry ref .retire .unassigned "" "")
    (v := t.position ref)
    (by rw [derivedRow_append_of_retire rfl hsome]; exact h ref)
  rwa [show (journalEntry ref .retire .unassigned "" "").subjectRef = ref from rfl,
    update_eq_self] at happend

/-- The relocation of a subject without a row: the journal has one position too many. -/
theorem not_agrees_relocateInTx {r : Relocation}
    (hdetached : ¬ t.Attached r.subjectRef) : ¬ (t.relocateInTx r).positionFoldOracle.Agrees := by
  have hnew : ∀ p ∈ t.positions, p.subjectRef ≠ r.position.subjectRef := by
    intro p hp heq
    rw [Attached, ← t.positioned] at hdetached
    exact hdetached (mem_map.mpr ⟨p, hp, heq⟩)
  have hset := FoldsTo.set h (journalEntry r.subjectRef .move r.kind r.locLeafID "")
    (p := r.position) rfl rfl
  obtain ⟨lines, hscan, hperm⟩ := scan_derivedRows (t.positionKeys.concat hnew) fun x => by
    rw [hset x, update_apply]
    dsimp only
    rw [find?_concat hnew]
    rfl
  have hsame : (t.relocateInTx r).positions = t.positions :=
    setPosition_of_not_attached (p := r.position) hdetached
  unfold Oracle.Agrees positionFoldOracle
  rw [show (t.relocateInTx r).journal = t.journal ++ _ from rfl, hscan, hsame, Option.map_some,
    Option.some.injEq]
  rw [map_append, map_singleton] at hperm
  refine ofLines_ne_of_more hperm (cons_ne_nil _ _) fun line hline hempty => ?_
  rw [mem_singleton.mp hline] at hempty
  have hlen := congrArg String.length hempty
  simp [Position.line, foldLine] at hlen

/-! ### The condition -/

/-- A `Move` that commits is of a subject that is still attached. -/
def Effect.KeepsFold : t.Effect → Prop
  | .relocate r => t.Attached r.subjectRef
  | _ => True

instance : (e : t.Effect) → Decidable e.KeepsFold
  | .relocate r => inferInstanceAs (Decidable (t.Attached r.subjectRef))
  | .none | .attach .. | .place .. | .promote .. | .detach .. | .demote .. | .retire ..
  | .setCapacity .. => .isTrue trivial

theorem folds_apply {e : t.Effect} (hempty : ¬ t.Attached "") (he : e.KeepsFold) :
    e.apply.Folds := by
  have hcontainer : ∀ {container}, (∃ y ∈ t.subject container, y.HasRoom) → container ≠ "" := by
    rintro container ⟨y, hy, -⟩ rfl
    exact hempty (isSome_subject.mp (Option.isSome_of_mem hy))
  cases e with
  | attach ref capacity hnew => exact folds_attached h
  | place ref container hp => exact folds_place h hp.attached (hcontainer hp.room)
  | promote ref container capacity hp =>
    exact folds_place (folds_attached h) (attached_attached_self capacity hp.fresh)
      (hcontainer hp.room)
  | relocate r => exact folds_relocateInTx h he
  | detach ref hattached => exact folds_detached h
  | demote ref hattached hempty =>
    refine folds_detached ?_
    unfold Folds
    rw [journal_relinquish, show (t.relinquish ref).position = t.position from
      funext fun _ => position_relinquish]
    exact h
  | retire ref hattached => exact folds_retired h hattached
  | none | setCapacity => exact h

/-- The oracle after a step. -/
theorem agrees_apply_iff {e : t.Effect} (hempty : ¬ t.Attached "") :
    e.apply.positionFoldOracle.Agrees ↔ e.KeepsFold := by
  refine ⟨fun hagrees => ?_, fun he => agrees_of_folds (folds_apply h hempty he)⟩
  cases e with
  | relocate r =>
    by_contra hdetached
    exact not_agrees_relocateInTx h hdetached hagrees
  | _ => trivial

end

/-- The empty reference is not attached by the effect. -/
def Effect.Named : t.Effect → Prop
  | .attach ref _ _ => ref ≠ ""
  | .promote ref _ _ _ => ref ≠ ""
  | _ => True

theorem not_attached_empty_apply {e : t.Effect} (h : ¬ t.Attached "") (he : e.Named) :
    ¬ e.apply.Attached "" := by
  cases e with
  | attach ref capacity hnew =>
    rw [Effect.apply, attached_attached_iff, not_or]
    exact ⟨h, Ne.symm he⟩
  | place ref container hp => rwa [Effect.apply, attached_place]
  | promote ref container capacity hp =>
    rw [Effect.apply, attached_place, attached_attached_iff, not_or]
    exact ⟨h, Ne.symm he⟩
  | none | relocate => exact h
  | detach ref hattached =>
    rw [Effect.apply, attached_detached]
    exact fun hx => h hx.1
  | demote ref hattached hempty =>
    rw [Effect.apply, attached_detached, attached_relinquish]
    exact fun hx => h hx.1
  | retire ref hattached => rwa [Effect.apply, retired, attached_append, attached_alter]
  | setCapacity ref capacity => rwa [Effect.apply, withCapacity, attached_alter]

end Tables

namespace ObjSite

variable {F : Type} {s : ObjSite F}

/-! ### No empty references -/

/-- No subject has the empty reference, and none is reserved. -/
structure Named (s : ObjSite F) : Prop where
  attached : ¬ s.tables.Attached ""
  pending : ∀ key tp, s.pending key = some (.attachAndContain tp) → tp.subjectRef ≠ ""

theorem Named.effect (h : s.Named) (c : ObjCmd F) : (s.effect c).Named := by
  have hplacement : ∀ ref container, (s.tables.placement ref container).Named := by
    intro ref container
    unfold placement
    split_ifs <;> trivial
  cases c with
  | attach ref capacity =>
    change (dite _ _ _ : s.tables.Effect).Named
    split_ifs with hnew
    · exact hnew.1
    · trivial
  | readMove ref target verdict =>
    change (ite _ _ _ : s.tables.Effect).Named
    split_ifs
    · exact hplacement _ _
    · trivial
  | moveToContainer ref container => exact hplacement _ _
  | commit i =>
    rcases hcall : s.calls[i]? with - | (r | ref)
    · simp only [ObjSite.effect, hcall, Tables.Effect.Named]
    · simp only [ObjSite.effect, hcall, callEffect, Tables.Effect.Named]
    · simp only [ObjSite.effect, hcall, callEffect]
      split_ifs <;> trivial
  | retire ref =>
    change (dite _ _ _ : s.tables.Effect).Named
    split_ifs <;> trivial
  | setCapacity ref capacity =>
    change (ite _ _ _ : s.tables.Effect).Named
    split_ifs <;> trivial
  | execute c =>
    rcases hop : s.pending (claimKey c) with - | (tp | tp)
    · simp only [ObjSite.effect, hop, Tables.Effect.Named]
    · simp only [ObjSite.effect, hop, opEffect]
      split_ifs
      · exact h.pending _ tp hop
      · trivial
    · simp only [ObjSite.effect, hop, opEffect]
      split_ifs <;> trivial
  | _ => trivial

variable (s)

theorem pending_settle (r : Except ObjError (Tables F)) : (s.settle r).pending = s.pending := by
  cases r <;> rfl

theorem pending_openCall (r : Except ObjError Call) : (s.openCall r).pending = s.pending := by
  cases r <;> rfl

theorem pending_commit (i : Nat) : (s.step (.commit i)).pending = s.pending := by
  rcases hcall : s.calls[i]? with - | call
  · simp only [step, hcall]
  · simp only [step, hcall]
    rw [pending_settle]

/-- What a step stashes. -/
theorem pending_step (c : ObjCmd F) (key : String) (tp : DxpAttachAndContainParams F)
    (h : (s.step c).pending key = some (.attachAndContain tp)) :
    s.pending key = some (.attachAndContain tp) ∨ tp.subjectRef ≠ "" := by
  have hrelease : ∀ c, (s.release c).pending key = some (.attachAndContain tp) →
      s.pending key = some (.attachAndContain tp) := by
    intro c hc
    change update s.pending (claimKey c) none key = _ at hc
    rw [update_apply] at hc
    split_ifs at hc
    exact hc
  cases c with
  | reserve tenant op txn participantID deadline w =>
    change (s.reserve ..).2.pending key = _ at h
    rcases s.reserve_eq tenant op txn participantID deadline w with hsame | ⟨hop, cl, hhold⟩
    · exact .inl (hsame ▸ h)
    · rw [hhold] at h
      change update s.pending (claimKey cl) (some op) key = _ at h
      rw [update_apply] at h
      split_ifs at h
      · exact .inr (hop tp (Option.some.inj h))
      · exact .inl h
  | postCommit c | release c => exact .inl (hrelease c h)
  | readMove ref target verdict =>
    change (ite _ _ _ : ObjSite F).pending key = _ at h
    split_ifs at h
    · exact .inl (s.pending_settle _ ▸ h)
    · exact .inl (s.pending_openCall _ ▸ h)
  | readDetach ref => exact .inl (s.pending_openCall _ ▸ h)
  | commit i => exact .inl (s.pending_commit i ▸ h)
  | attach | moveToContainer | retire | setCapacity | execute => exact .inl (s.pending_settle _ ▸ h)
  | validate | confirmTxn | releaseTxn | tick => exact .inl h

variable {s}

theorem Named.step (h : s.Named) (c : ObjCmd F) : (s.step c).Named where
  attached := by
    rw [s.tables_step c]
    exact not_attached_empty_apply h.attached (h.effect c)
  pending key tp htp := (s.pending_step c key tp htp).elim (h.pending key tp) id

/-! ### Runs -/

/-- After a step the oracle agrees. -/
def OracleAgrees (s : ObjSite F) (c : ObjCmd F) : Prop :=
  (s.step c).tables.positionFoldOracle.Agrees
deriving Decidable

/-- What a step needs for the oracle. -/
def KeepsFold (s : ObjSite F) (c : ObjCmd F) : Prop := (s.effect c).KeepsFold

/-- **The journal folds to the positions.**  In a run of any interleaving of calls, the oracle
agrees after every step if and only if every `Move` to a leaf or to nowhere that commits is of a
subject that is still attached. -/
theorem folds_iff (tenant : String) (now : Int) (cmds : List (ObjCmd F)) :
    Along step OracleAgrees (init tenant now) cmds ↔
      Along step KeepsFold (init tenant now) cmds := by
  refine along_iff_of_invariant (I := fun s : ObjSite F => s.tables.Folds ∧ s.Named)
    (fun s c hi _ hkeeps => ⟨?_, hi.2.step c⟩) (fun s c hi _ => ?_) ⟨fun _ => rfl, ?_⟩ .trivial
  · rw [s.tables_step c]
    exact folds_apply hi.1 hi.2.attached hkeeps
  · unfold OracleAgrees KeepsFold
    rw [s.tables_step c]
    exact agrees_apply_iff hi.1 hi.2.attached
  · exact ⟨fun h => absurd h not_mem_nil, fun key tp h => nomatch h⟩

/-- A `Move` of `a` is read, `a` is detached, and the `Move` commits: the journal has `a` at a
leaf, and no row does. -/
theorem late_move_misfolds :
    let cmds : List (ObjCmd Nat) := [.attach "a" unlimited,
      .readMove "a" ⟨"loc_leaf", "leaf", ""⟩ (.ok ()), .readDetach "a", .commit 1, .commit 0]
    (run step (init "t" 0) cmds).tables.positionFoldOracle = ⟨some "a loc_leaf leaf -", ""⟩ ∧
      ¬ Along step OracleAgrees (init "t" 0) cmds := by
  decide +kernel

end ObjSite

end Xolu.Obj
