/-
# Grouping keys (pkg/oql/aggregator.go, pkg/oql/executor.go)

GROUP BY and DISTINCT tell records apart by a text, the renderings of the listed values with a
bar between them.  Values that hold a bar, or that differ and are rendered alike, can make one
key of two lists of values.  GROUP BY reads an expression as the field of its text, which a
record need not have.  `keys_faithful_iff` says when the keys are faithful all the same.
-/
import Xolu.Lib.Grouping

namespace Xolu.Oql

open List Grouping

/-- The fields of a record. -/
abbrev Record (V : Type) := List (String × V)

/-- What is given of expressions and values: the text and the value of an expression, `nil`, and
the text that `%v` makes of a value. -/
structure Expressions (E V : Type) where
  exprToString : E → String
  evalExpr : Record V → E → V
  null : V
  sprint : V → String

namespace Expressions

variable {E V : Type} (x : Expressions E V)

/-- The field of that name, or else of the part after its last dot. -/
def getFieldValue (rec : Record V) (field : String) : V :=
  match rec.lookup field with
  | some v => v
  | none =>
    match (field.toList.splitOn '.').reverse with
    | short :: _ :: _ => (rec.lookup (.ofList short)).getD x.null
    | _ => x.null

/-- What GROUP BY reads for an expression. -/
def column (rec : Record V) (e : E) : V := x.getFieldValue rec (x.exprToString e)

/-- The key of a record for GROUP BY. -/
def buildGroupKey (groupBy : List E) (rec : Record V) : String :=
  if groupBy.isEmpty then ""
  else "|".intercalate (groupBy.map fun e => x.sprint (x.column rec e))

/-- The key of a record for DISTINCT.  The column `*` has no expression, and the evaluator gives
`nil` for it: `SELECT DISTINCT *` has one key for all records and is not described by its fields. -/
def buildDistinctKey (columns : List E) (rec : Record V) : String :=
  "|".intercalate (columns.map fun e => x.sprint (x.evalExpr rec e))

/-- The groups that `Aggregate` makes its rows of; COUNT(*) is the length of one.  Without
GROUP BY there is a group also when there are no records. -/
def aggregate (groupBy : List E) (records : List (Record V)) : List (List (Record V)) :=
  let groups := records.foldl (addToGroup (x.buildGroupKey groupBy)) []
  if groupBy.isEmpty && groups.isEmpty then [[]] else groups.map Prod.snd

/-- The first record of each key. -/
def distinctRecords (columns : List E) (records : List (Record V)) : List (Record V) :=
  records.foldl (keepNew (x.buildDistinctKey columns)) []

/-- Two records with the same value of every listed expression. -/
def Agree (exprs : List E) (r s : Record V) : Prop := ∀ e ∈ exprs, x.evalExpr r e = x.evalExpr s e

/-- The pieces of a text between its bars. -/
def pieces (s : String) : List (List Char) := s.toList.splitOn '|'

/-- Records have the same pieces in the renderings of what is read of them just when they
agree. -/
def Separated (read : Record V → E → V) (exprs : List E) (records : List (Record V)) : Prop :=
  ∀ r ∈ records, ∀ s ∈ records,
    (exprs.flatMap fun e => pieces (x.sprint (read r e))) =
        (exprs.flatMap fun e => pieces (x.sprint (read s e))) ↔ x.Agree exprs r s

theorem splitOn_join (s : String) (parts : List String) :
    ("|".intercalate (s :: parts)).toList.splitOn '|' = (s :: parts).flatMap pieces := by
  induction parts generalizing s with
  | nil => simp [pieces]
  | cons t parts ih =>
    have hjoin : ("|".intercalate (s :: t :: parts)).toList =
        s.toList ++ '|' :: ("|".intercalate (t :: parts)).toList := by
      simp [String.toList_intercalate]
    rw [hjoin, splitOn_append_cons_self, ih]
    rfl

/-- As many texts make the same join just when they have the same pieces. -/
theorem join_eq_iff {l m : List String} (hlen : l.length = m.length) :
    "|".intercalate l = "|".intercalate m ↔ l.flatMap pieces = m.flatMap pieces := by
  match l, m, hlen with
  | [], [], _ => simp
  | s :: l, t :: m, _ =>
    rw [← splitOn_join, ← splitOn_join]
    constructor
    · intro h
      rw [h]
    · intro h
      have hcut := congrArg ['|'].intercalate h
      rw [intercalate_splitOn, intercalate_splitOn] at hcut
      exact String.toList_injective hcut

theorem join_map_eq_iff (f g : E → String) (exprs : List E) :
    "|".intercalate (exprs.map f) = "|".intercalate (exprs.map g) ↔
      exprs.flatMap (fun e => pieces (f e)) = exprs.flatMap fun e => pieces (g e) := by
  rw [join_eq_iff (by rw [length_map, length_map]), flatMap_map, flatMap_map]

variable {x} {exprs : List E} {records : List (Record V)}

theorem groupedBy_aggregate_iff : GroupedBy (x.Agree exprs) records (x.aggregate exprs records) ↔
      x.Separated x.column exprs records := by
  have hgroups : Groups (x.buildGroupKey exprs) records _ := groups_foldl records
  unfold aggregate
  generalize records.foldl (addToGroup (x.buildGroupKey exprs)) [] = groups at hgroups ⊢
  dsimp only
  split
  next hempty =>
    obtain ⟨-, rfl⟩ : exprs = [] ∧ groups = [] := by simpa using hempty
    obtain rfl : records = [] := hgroups.shared.nil_eq.symm
    exact iff_of_true ⟨by simp, .nil, rfl⟩ (by simp [Separated])
  next =>
    rw [hgroups.groupedBy_iff]
    refine forall₄_congr fun r _ s _ => iff_congr ?_ .rfl
    unfold buildGroupKey
    split
    next hnil => simp [isEmpty_iff.mp hnil]
    next => exact join_map_eq_iff ..

theorem equivalence_agree : Equivalence (x.Agree exprs) where
  refl _ _ _ := rfl
  symm h e he := (h e he).symm
  trans h h' e he := (h e he).trans (h' e he)

theorem distinctBy_distinctRecords_iff :
    DistinctBy (x.Agree exprs) records (x.distinctRecords exprs records) ↔
      x.Separated x.evalExpr exprs records := by
  rw [distinctRecords, (keeps_foldl records).distinctBy_iff equivalence_agree]
  · exact forall₄_congr fun r _ s _ => iff_congr (join_map_eq_iff ..) .rfl
  · intro r s h
    unfold buildDistinctKey
    rw [map_congr_left fun e he => congrArg x.sprint (h e he)]

/-- **Grouping keys are faithful** just where cutting the renderings at their bars tells records
apart as their values do.  The groups share out the records all the same. -/
theorem keys_faithful_iff (x : Expressions E V) (records : List (Record V))
    (groupBy columns : List E) :
    (GroupedBy (x.Agree groupBy) records (x.aggregate groupBy records) ↔
        x.Separated x.column groupBy records) ∧
      (DistinctBy (x.Agree columns) records (x.distinctRecords columns records) ↔
        x.Separated x.evalExpr columns records) :=
  ⟨groupedBy_aggregate_iff, distinctBy_distinctRecords_iff⟩

/-- The plain form of the condition: no rendering holds a bar, and the renderings of what is read
for an expression tell its values apart. -/
theorem separated_of_sprint {read : Record V → E → V}
    (hbar : ∀ r ∈ records, ∀ e ∈ exprs, '|' ∉ (x.sprint (read r e)).toList)
    (hsprint : ∀ r ∈ records, ∀ s ∈ records, ∀ e ∈ exprs,
      x.sprint (read r e) = x.sprint (read s e) ↔ x.evalExpr r e = x.evalExpr s e) :
    x.Separated read exprs records := by
  -- a text without a bar is one piece
  have hpieces : ∀ r ∈ records, (exprs.flatMap fun e => pieces (x.sprint (read r e))) =
      exprs.map fun e => (x.sprint (read r e)).toList := by
    intro r hr
    rw [map_eq_flatMap]
    exact flatMap_congr fun e he => splitOn_eq_singleton (hbar r hr e he)
  intro r hr s hs
  rw [hpieces r hr, hpieces s hs, map_inj_left]
  refine forall₂_congr fun e he => ?_
  rw [String.toList_inj, hsprint r hr s hs e he]

/-- Two columns, `nil` and texts. -/
def twoColumns : Expressions String (Option String) where
  exprToString := id
  evalExpr rec name := (rec.lookup name).getD none
  null := none
  sprint v := v.getD "<nil>"

/-- The values `a|b`, `c` and the values `a`, `b|c` make one key. -/
theorem one_group_of_bars : let r := [("p", some "a|b"), ("q", some "c")]
    let s := [("p", some "a"), ("q", some "b|c")]
    twoColumns.aggregate ["p", "q"] [r, s] = [[r, s]] ∧
      twoColumns.distinctRecords ["p", "q"] [r, s] = [r] ∧ ¬ twoColumns.Agree ["p", "q"] r s := by
  intro r s
  refine ⟨by decide +kernel, by decide +kernel, fun h => ?_⟩
  have hp := h "p" (by simp)
  revert hp
  decide +kernel

end Expressions

end Xolu.Oql
