/-
# Statements that write rows (pkg/oql/executor.go)

`executeInsert`, `executeUpdate` and `executeDelete` hand their rows to the store one by one,
each in a transaction of its own, and return at the first one that the schema validator or the
store refuses.  The rows before it have been written (`error_unchanged_iff`).
-/
import Mathlib.Data.Int.ConditionallyCompleteOrder
import Xolu.Storage.Entity

namespace Xolu.Oql

open Storage EntityStore Runs

variable {D : Type}

/-- The error of a statement, with the number of the row or the id that it names. -/
inductive StatementError where
  | validation (row : Int) (errors : String)
  | store (row : Int) (err : EntityError)
  deriving DecidableEq, Repr

/-- A statement when its values are evaluated and its records are read: the records of the rows
to insert, or the ids of the records that the condition keeps, with the clauses of an update
applied. -/
inductive Statement (D : Type) where
  | insert (records : List D)
  | update (records : List (Int × D))
  | delete (ids : List Int)

/-- What is done for one row. -/
inductive RowWrite (D : Type) where
  | create (row : Nat) (data : D)
  | update (id : Int) (data : D)
  | delete (id : Int)

/-- Rows are numbered from one; a record without an id is passed over. -/
def Statement.rows : Statement D → List (RowWrite D)
  | .insert records => records.zipIdx.map fun r => .create (r.2 + 1) r.1
  | .update records => (records.filter (·.1 ≠ 0)).map fun r => .update r.1 r.2
  | .delete ids => (ids.filter (· ≠ 0)).map .delete

section execute

variable (c : EntityStore D) (validate : D → Option String) (entity : String)

/-- A record is validated before it is handed to the store. -/
def validated (row : Int) (d : D) (write : Tx (EntityTables D)) :
    Except StatementError (EntityTables D) :=
  match validate d with
  | some errors => .error (.validation row errors)
  | none => write.mapError (.store row)

variable (t : EntityTables D)

/-- The write of one row; a deletion is not validated. -/
def writeRow : RowWrite D → Except StatementError (EntityTables D)
  | .create row d => validated validate row d (c.createInner t entity d)
  | .update id d => validated validate id d (c.updateInner t ⟨entity, id⟩ d)
  | .delete id => (c.deleteInTx t ⟨entity, id⟩ []).mapError (.store id)

/-- The tables after the statement, and its error if it returns one. -/
def execute (s : Statement D) : EntityTables D × Option StatementError :=
  untilError (writeRow c validate entity) t s.rows

/-- The first row to be written is refused. -/
def RefusesFirst (s : Statement D) : Prop :=
  ∃ w ∈ s.rows.head?, ∃ e, writeRow c validate entity t w = .error e

end execute

/-- What the writes of a statement increase: insertions the rows that are there, updates their
versions and deletions the rows that are not there. -/
def Statement.measure : Statement D → Option (EntityRow D) → Int
  | .insert _, r => if r.isSome then 1 else 0
  | .update _, r => (r.map EntityRow.version).getD 0
  | .delete _, r => if r.isSome then 0 else 1

variable {c : EntityStore D} {validate : D → Option String} {entity : String} {s : Statement D}
  {t t' : EntityTables D} {w : RowWrite D}

theorem validated_eq_ok {row : Int} {d : D} {x : Tx (EntityTables D)} :
    validated validate row d x = .ok t' ↔ validate d = none ∧ x = .ok t' := by
  unfold validated
  cases validate d with
  | some errors => simp
  | none => exact mapError_eq_ok.trans (and_iff_right rfl).symm

/-- **One row.**  A write that is not refused changes one row, and increases the measure of its
statement there. -/
theorem writeRow_ok (hw : w ∈ s.rows) (h : writeRow c validate entity t w = .ok t') :
    ∃ k r, t'.rows = Function.update t.rows k r ∧ s.measure (t.rows k) < s.measure r := by
  cases s with
  | insert records =>
    obtain ⟨⟨d, i⟩, -, rfl⟩ := List.mem_map.mp hw
    obtain ⟨⟨id, t₁⟩, halloc, hcreate⟩ := bind_ok (validated_eq_ok.mp h).2
    obtain ⟨t₂, hins, hsync⟩ := bind_ok hcreate
    obtain ⟨hnone, r, rfl⟩ := insertRow_ok hins
    obtain rfl := allocate_ok halloc
    refine ⟨⟨entity, id⟩, some r, sync_rows hsync, ?_⟩
    rw [show t.rows ⟨entity, id⟩ = none from hnone]
    exact zero_lt_one
  | update records =>
    obtain ⟨⟨id, d⟩, -, rfl⟩ := List.mem_map.mp hw
    obtain ⟨t₁, hupd, hsync⟩ := bind_ok (validated_eq_ok.mp h).2
    obtain ⟨r, d', hrow, -, -, rfl⟩ := updateRow_eq_ok.mp hupd
    refine ⟨⟨entity, id⟩, some ⟨d', r.version + 1⟩, sync_rows hsync, ?_⟩
    rw [hrow]
    exact lt_add_one r.version
  | delete ids =>
    obtain ⟨id, -, rfl⟩ := List.mem_map.mp hw
    obtain ⟨-, hsome, rfl⟩ := delete_eq_ok.mp (mapError_eq_ok.mp h)
    obtain ⟨r, hrow⟩ := Option.isSome_iff_exists.mp hsome
    refine ⟨⟨entity, id⟩, none, rfl, ?_⟩
    rw [hrow]
    exact zero_lt_one

/-- The measure at every key, which a write increases at one and keeps at the others. -/
theorem measure_lt (hw : w ∈ s.rows) (h : writeRow c validate entity t w = .ok t') :
    (fun k => s.measure (t.rows k)) < fun k => s.measure (t'.rows k) := by
  obtain ⟨k, r, hrows, hlt⟩ := writeRow_ok hw h
  have hupdate := Function.comp_update s.measure t.rows k r
  rw [← hrows] at hupdate
  change s.measure ∘ t.rows < s.measure ∘ t'.rows
  rw [hupdate]
  exact lt_update_self_iff.mpr hlt

/-- **Statements that fail.**  A statement that returns an error leaves the stored entities as
they were if and only if the first row that it writes is refused. -/
theorem error_unchanged_iff (c : EntityStore D) (validate : D → Option String) (entity : String)
    (t : EntityTables D) (s : Statement D) (herr : (execute c validate entity t s).2.isSome) :
    (execute c validate entity t s).1.rows = t.rows ↔ RefusesFirst c validate entity t s := by
  have hm : ∀ w ∈ s.rows, ∀ t t', writeRow c validate entity t w = .ok t' →
      (fun k => s.measure (t.rows k)) < fun k => s.measure (t'.rows k) :=
    fun w hw t t' h => measure_lt hw h
  rcases untilError_cases hm herr with ⟨hsame, hfirst⟩ | ⟨hlt, hnot⟩
  · exact iff_of_true (congrArg EntityTables.rows hsame) hfirst
  · refine iff_of_false (fun hrows => ?_) hnot
    change (fun k => s.measure (t.rows k)) <
      fun k => s.measure ((execute c validate entity t s).1.rows k) at hlt
    rw [hrows] at hlt
    exact lt_irrefl _ hlt

/-- Texts must not be empty. -/
def notEmpty (d : String) : Option String := if d = "" then some "empty" else none

/-- An insertion whose first row is not valid. -/
theorem error_unchanged_first :
    (execute plainTexts notEmpty "note" twoTexts (.insert ["", "new"])).1.rows = twoTexts.rows :=
  (error_unchanged_iff plainTexts notEmpty "note" twoTexts (.insert ["", "new"]) rfl).mpr
    ⟨.create 1 "", rfl, .validation 1 "empty", rfl⟩

/-- An insertion whose second row is not valid leaves the first one; an update and a deletion
with an id that is not there leave what they did to the row before. -/
theorem error_after_write :
    let inserted := execute plainTexts notEmpty "note" twoTexts (.insert ["new", ""])
    let updated := execute plainTexts notEmpty "note" twoTexts (.update [(1, "new"), (3, "new")])
    let deleted := execute plainTexts notEmpty "note" twoTexts (.delete [1, 3])
    inserted.2 = some (.validation 2 "empty") ∧ inserted.1.data ⟨"note", 3⟩ = some "new" ∧
      twoTexts.data ⟨"note", 3⟩ = none ∧
      updated.2 = some (.store 3 .notFound) ∧ updated.1.data ⟨"note", 1⟩ = some "new" ∧
      deleted.2 = some (.store 3 .notFound) ∧ deleted.1.data ⟨"note", 1⟩ = none ∧
      twoTexts.data ⟨"note", 1⟩ = some "text" := by
  decide

end Xolu.Oql
