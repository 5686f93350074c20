/-
# The rows that UPDATE and DELETE reach (pkg/oql/planner.go, executor.go)

`SELECT *` and the mutations each plan how they read the rows that a condition keeps: from a
number of rows on the condition goes to SQLite, over the table of blobs.  The plan of a mutation
does not ask whether the entity has a table of its own, and the records that come back have a
version that `updateInner` does not read.  A tenant id that is a number is compared with a column
that the table of blobs does not have.  `mutation_reaches_iff` says exactly when a mutation writes
the rows that the query returns.
-/
import Xolu.Oql.Statement

namespace Xolu.Oql

open List Storage EntityStore Runs

variable {D E : Type}

/-- The rows of an entity, in the order in which they are read. -/
structure Listing (t : EntityTables D) (entity : String) where
  rows : List (Int × EntityRow D)
  nodup : (rows.map Prod.fst).Nodup
  mem_iff : ∀ i r, (i, r) ∈ rows ↔ t.rows ⟨entity, i⟩ = some r

/-- The error of a query or of a mutation. -/
inductive ExecError where
  | unsupported | scanLimit | resultLimit | pushDown
  | statement (err : StatementError)
  deriving DecidableEq, Repr

/-- An update has the effect of its SET clauses on a record. -/
inductive Mutation (D : Type) where
  | update (set : D → D)
  | delete

/-- The statement that is left when the records are read, each with the id that was read. -/
def Mutation.statement : Mutation D → List (Int × D) → Statement D
  | .update f, records => .update (records.map fun r => (r.1, f r.2))
  | .delete, records => .delete (records.map Prod.fst)

/-- The planner's threshold, the limits, the filters by tenant and the two evaluators of
conditions: `evalCondition`, and the SQL of `translateExpr` as SQLite evaluates it.  The SQL of a
tenant is a condition on a field of the blob; there is none if it names `tenant_id`, which is not a
column of the table.  `withVersion` sets the member `_version`. -/
structure Executor (D E : Type) where
  threshold : Nat
  maxScanRows : Nat
  maxRows : Nat
  isWherePushable : E → Bool
  isGoPathSupported : E → Bool
  evalCondition : E → D → Bool
  translateExpr : E → Option (D → Bool)
  filterByTenant : D → Bool
  sqlTenant : Option (D → Bool)
  withVersion : D → VersionMember → D
  validate : D → Option String

/-- The id in a blob is a JSON number, which is read as a float64. -/
def extractID (adapted : Bool) (i : Int) : Int := if adapted then i else Num64.wrap (Num64.toReal i)

namespace Executor

section

variable (e : Executor D E) (c : EntityStore D) {t : EntityTables D} {entity : String}
  (l : Listing t entity) (w : E) (m : Mutation D)

/-- `List` gives versions as an int, `QueryWithPlan` as an int64. -/
def record (pushed : Bool) (r : EntityRow D) : D :=
  e.withVersion r.data (if pushed then .other else .number r.version)

/-- The plan of a mutation: the condition goes to SQLite. -/
def planMutation : Bool := e.threshold ≤ l.rows.length && e.isWherePushable w

/-- `SELECT *` of an adapted entity is not translated as a whole, and then stays in Go. -/
def plan : Bool := !c.adapted entity && e.planMutation l w

/-- The SQL was generated; if that fails the Go path is taken. -/
def pushes (push : Bool) : Bool := push && (e.translateExpr w).isSome

/-- The rows that the condition keeps, read by a plan.  An adapted entity has no row in the table
of blobs. -/
def fetch (push : Bool) : Except ExecError (List (Int × EntityRow D)) :=
  if push = false ∧ e.isGoPathSupported w = false then .error .unsupported
  else match if push then e.translateExpr w else none with
    | some cond =>
      match e.sqlTenant with
      | none => .error .pushDown
      | some tenant => .ok (if c.adapted entity then [] else
          l.rows.filter fun r => tenant r.2.data && cond r.2.data)
    | none => .ok (l.rows.filter fun r =>
        e.filterByTenant (e.record false r.2) && e.evalCondition w (e.record false r.2))

/-- `SELECT *` with the condition; only the Go path has a limit on the rows it scans. -/
def executeSelect : Except ExecError (List (Int × EntityRow D)) := do
  let rows ← e.fetch c l w (e.plan c l w)
  if 0 < e.maxScanRows ∧ e.maxScanRows < l.rows.length ∧ e.pushes w (e.plan c l w) = false then
    .error .scanLimit
  else if 0 < e.maxRows ∧ e.maxRows < rows.length then .error .resultLimit
  else .ok rows

/-- The records of the rows as the mutation reads them. -/
def records (rows : List (Int × EntityRow D)) : List (Int × D) :=
  rows.map fun r =>
    (extractID (c.adapted entity) r.1, e.record (e.pushes w (e.planMutation l w)) r.2)

/-- What is written for a row whose id is read as it is. -/
def rowWrite : Mutation D → Int × EntityRow D → RowWrite D
  | .update f, r => .update r.1 (f (e.record (e.pushes w (e.planMutation l w)) r.2))
  | .delete, r => .delete r.1

/-- The tables after the records of these rows are written. -/
def writeAll (rows : List (Int × EntityRow D)) : EntityTables D × Option StatementError :=
  execute c e.validate entity t (m.statement (e.records c l w rows))

/-- `executeUpdate` and `executeDelete`, with the ids of the rows that were written: a record
whose id is 0 is passed over. -/
def executeMutation : Except ExecError (EntityTables D × List Int) := do
  let rows ← e.fetch c l w (e.planMutation l w)
  match e.writeAll c l w m rows with
  | (_, some err) => .error (.statement err)
  | (t', none) => .ok (t', ((e.records c l w rows).map Prod.fst).filter (· ≠ 0))

/-- The mutation acts on exactly these rows. -/
def ActsOn (rows : List (Int × EntityRow D)) : Prop :=
  ∃ t', e.executeMutation c l w m = .ok (t', rows.map Prod.fst)

/-- What an update makes of a record is valid and is taken by the store as it is when the rows
before have been written. -/
def TakesEach (rows : List (Int × EntityRow D)) : Prop :=
  ∀ set, m = .update set → ∀ before r after, rows = before ++ r :: after →
    let d := set (e.record (e.pushes w (e.planMutation l w)) r.2)
    e.validate d = none ∧ c.Takes (e.writeAll c l w m before).1 ⟨entity, r.1⟩ d

/-- The mutation can reach the rows: its plan does not read another table, their ids are read as
they are, and an update of each is taken. -/
structure Reaches (rows : List (Int × EntityRow D)) : Prop where
  table : c.adapted entity → e.pushes w (e.planMutation l w) → rows = [] ∧ e.sqlTenant.isSome
  extracted : ∀ r ∈ rows, extractID (c.adapted entity) r.1 = r.1 ∧ r.1 ≠ 0
  taken : e.TakesEach c l w m rows

end

variable {e : Executor D E} {c : EntityStore D} {t : EntityTables D} {entity : String}
  {l : Listing t entity} {w : E} {m : Mutation D} {rows : List (Int × EntityRow D)}

theorem fetch_sublist {push : Bool} (h : e.fetch c l w push = .ok rows) : rows.Sublist l.rows := by
  unfold fetch at h
  split at h
  · cases h
  split at h
  · split at h
    · cases h
    · cases h
      split
      · exact nil_sublist _
      · exact filter_sublist
  · cases h
    exact filter_sublist

/-- The plans differ for an adapted entity, where the table of blobs has no row. -/
theorem fetch_other (hadapted : c.adapted entity) (hpushes : e.pushes w (e.planMutation l w)) :
    e.fetch c l w (e.planMutation l w) =
      if e.sqlTenant.isSome then .ok [] else .error .pushDown := by
  rw [pushes, Bool.and_eq_true] at hpushes
  obtain ⟨cond, hcond⟩ := Option.isSome_iff_exists.mp hpushes.2
  rw [hpushes.1, fetch, if_neg (by simp), if_pos rfl, hcond]
  cases e.sqlTenant with
  | none => rfl
  | some tenant =>
    dsimp only
    rw [if_pos hadapted]
    rfl

/-- Otherwise a mutation fetches what the query does. -/
theorem fetch_same (h : e.fetch c l w (e.plan c l w) = .ok rows)
    (hother : ¬ (c.adapted entity ∧ e.pushes w (e.planMutation l w))) :
    e.fetch c l w (e.planMutation l w) = .ok rows := by
  rw [plan] at h
  cases hadapted : c.adapted entity with
  | false =>
    rw [hadapted] at h
    simpa using h
  | true =>
    rw [hadapted] at h
    simp only [Bool.not_true, Bool.false_and] at h
    cases hplan : e.planMutation l w with
    | false => exact h
    | true =>
      have htrans : e.translateExpr w = none := by
        simpa [hadapted, hplan, pushes] using hother
      unfold fetch at h ⊢
      split at h
      · cases h
      · simpa [htrans] using h

/-- What it takes to act on the rows: some records are fetched and none is refused. -/
theorem actsOn_iff : e.ActsOn c l w m rows ↔
    ∃ rows', e.fetch c l w (e.planMutation l w) = .ok rows' ∧ (e.writeAll c l w m rows').2 = none ∧
      ((e.records c l w rows').map Prod.fst).filter (· ≠ 0) = rows.map Prod.fst := by
  constructor
  · rintro ⟨t', h⟩
    obtain ⟨rows', hfetch, hwrite⟩ := bind_ok h
    split at hwrite
    · cases hwrite
    · next t₁ hall =>
      obtain ⟨-, hids⟩ := Prod.mk.inj (Except.ok.inj hwrite)
      exact ⟨rows', hfetch, congrArg Prod.snd hall, hids⟩
  · rintro ⟨rows', hfetch, hnone, hids⟩
    refine ⟨(e.writeAll c l w m rows').1, ?_⟩
    have hall : e.writeAll c l w m rows' = (_, none) := Prod.ext rfl hnone
    simp only [executeMutation, hfetch, bind, Except.bind]
    rw [hall, hids]

/-- The ids are those of the rows if each of them is read as it is. -/
theorem filter_records_iff :
    ((e.records c l w rows).map Prod.fst).filter (· ≠ 0) = rows.map Prod.fst ↔
      ∀ r ∈ rows, extractID (c.adapted entity) r.1 = r.1 ∧ r.1 ≠ 0 := by
  have hmap : (e.records c l w rows).map Prod.fst =
      rows.map fun r => extractID (c.adapted entity) r.1 := map_map ..
  rw [hmap]
  constructor
  · intro h
    -- a list of the same length has no id left out
    have hkept := length_filter_eq_length_iff.mp
      ((congrArg length h).trans (by rw [length_map, length_map]))
    rw [filter_eq_self.mpr hkept, map_inj_left] at h
    intro r hr
    have hne := hkept _ (mem_map_of_mem hr)
    rw [h r hr] at hne
    exact ⟨h r hr, of_decide_eq_true hne⟩
  · intro h
    rw [map_congr_left fun r hr => (h r hr).1, filter_eq_self]
    intro i hi
    obtain ⟨r, hr, rfl⟩ := mem_map.mp hi
    exact decide_eq_true (h r hr).2

/-- The writes of a statement, if each id is read as it is. -/
theorem writeAll_eq (hread : ∀ r ∈ rows, extractID (c.adapted entity) r.1 = r.1 ∧ r.1 ≠ 0) :
    e.writeAll c l w m rows =
      untilError (writeRow c e.validate entity) t (rows.map (e.rowWrite l w m)) := by
  have hrec : e.records c l w rows = rows.map fun r =>
      (r.1, e.record (e.pushes w (e.planMutation l w)) r.2) :=
    map_congr_left fun r hr => congrArg (·, _) (hread r hr).1
  unfold writeAll execute
  rw [hrec]
  -- no id is left out, of an update or of a deletion
  cases m
  all_goals
    rw [Mutation.statement, Statement.rows, map_map, filter_eq_self.mpr, map_map]
    · rfl
    · exact forall_mem_map.mpr fun r hr => decide_eq_true (hread r hr).2

/-- Rows that are there can be deleted one after the other. -/
theorem deletes_taken {validate : D → Option String} {ids : List Int} (hnd : ids.Nodup)
    (h : ∀ i ∈ ids, (t.rows ⟨entity, i⟩).isSome) :
    (untilError (writeRow c validate entity) t (ids.map .delete)).2 = none := by
  induction ids generalizing t with
  | nil => rfl
  | cons i ids ih =>
    rw [forall_mem_cons] at h
    rw [nodup_cons] at hnd
    have hdel : c.deleteInTx t ⟨entity, i⟩ [] = .ok _ := delete_eq_ok.mpr ⟨rfl, h.1, rfl⟩
    rw [map_cons, untilError, writeRow, hdel]
    refine ih hnd.2 fun j hj => ?_
    show (Function.update t.rows ⟨entity, i⟩ none ⟨entity, j⟩).isSome
    have hne : (⟨entity, j⟩ : EntityKey) ≠ ⟨entity, i⟩ := by
      rintro ⟨⟩
      exact hnd.1 hj
    rw [Function.update_of_ne hne]
    exact h.2 j hj

/-- **The records.**  If the ids are read as they are, no record is refused just when the store
takes each record of an update. -/
theorem writeAll_iff (hsub : rows.Sublist l.rows)
    (hread : ∀ r ∈ rows, extractID (c.adapted entity) r.1 = r.1 ∧ r.1 ≠ 0) :
    (e.writeAll c l w m rows).2 = none ↔ e.TakesEach c l w m rows := by
  rw [writeAll_eq hread]
  cases m with
  | delete =>
    have hids : rows.map (e.rowWrite l w .delete) = (rows.map Prod.fst).map .delete :=
      (map_map ..).symm
    rw [hids]
    refine iff_of_true (deletes_taken (l.nodup.sublist (hsub.map _)) ?_) nofun
    refine forall_mem_map.mpr fun r hr => ?_
    rw [(l.mem_iff r.1 r.2).mp (hsub.subset hr)]
    rfl
  | update set =>
    have hbefore : ∀ {before r after}, rows = before ++ r :: after →
        e.writeAll c l w (.update set) before = untilError (writeRow c e.validate entity) t
          (before.map (e.rowWrite l w (.update set))) := fun hrows =>
      writeAll_eq fun r hr => hread r (hrows ▸ mem_append_left _ hr)
    rw [untilError_eq_none_iff]
    constructor
    · rintro h _ ⟨⟩ before r after hrows
      obtain ⟨t', ht⟩ := h before r after hrows
      obtain ⟨hvalid, hupd⟩ := validated_eq_ok.mp ht
      rw [hbefore hrows]
      exact ⟨hvalid, takes_iff.mpr ⟨t', hupd⟩⟩
    · intro h before r after hrows
      obtain ⟨hvalid, htakes⟩ := h set rfl before r after hrows
      rw [hbefore hrows] at htakes
      obtain ⟨t', hupd⟩ := takes_iff.mp htakes
      exact ⟨t', validated_eq_ok.mpr ⟨hvalid, hupd⟩⟩

/-- **Mutations and queries.**  A mutation acts on exactly the rows that `SELECT *` with its
condition returns, one after the other, if and only if it can reach them. -/
theorem mutation_reaches_iff (e : Executor D E) (c : EntityStore D) (t : EntityTables D)
    (entity : String) (l : Listing t entity) (w : E) (m : Mutation D)
    (rows : List (Int × EntityRow D)) (hselect : e.executeSelect c l w = .ok rows) :
    e.ActsOn c l w m rows ↔ e.Reaches c l w m rows := by
  obtain ⟨rows', hfetch, hok⟩ := bind_ok hselect
  split_ifs at hok
  cases hok
  have hsub := fetch_sublist hfetch
  rw [actsOn_iff]
  by_cases hother : c.adapted entity ∧ e.pushes w (e.planMutation l w)
  · rw [fetch_other hother.1 hother.2]
    constructor
    · rintro ⟨rows', hif, -, hids⟩
      split_ifs at hif with htenant
      cases hif
      obtain rfl := map_eq_nil_iff.mp hids.symm
      exact ⟨fun _ _ => ⟨rfl, htenant⟩, nofun, by simp [TakesEach]⟩
    · intro h
      obtain ⟨rfl, htenant⟩ := h.table hother.1 hother.2
      rw [if_pos htenant]
      exact ⟨[], rfl, by cases m <;> rfl, rfl⟩
  · rw [fetch_same hfetch hother]
    constructor
    · rintro ⟨_, ⟨⟩, hnone, hids⟩
      have hread := filter_records_iff.mp hids
      exact ⟨fun ha hp => absurd ⟨ha, hp⟩ hother, hread, (writeAll_iff hsub hread).mp hnone⟩
    · intro h
      exact ⟨rows, rfl, (writeAll_iff hsub h.extracted).mpr h.taken,
        filter_records_iff.mpr h.extracted⟩

/-- Documents that are a version; forms have a table of their own. -/
def versions : EntityStore VersionMember where
  version := some
  strip d := d
  setID d _ := d
  merge _ u := u
  edges _ := .ok []
  encode _ _ d := .ok d
  adapted entity := entity = "form"
  refers _ _ _ := false
  graphEnabled := false

/-- Fifty rows of every entity, at their first version. -/
def fiftyRows : EntityTables VersionMember where
  rows k := if 1 ≤ k.id ∧ k.id ≤ 50 then some ⟨.other, 1⟩ else none
  edges := []
  props _ := none
  nextID _ := some 50
  nextEdgeID := 1

/-- The fifty rows in the order of their ids. -/
def fifty (entity : String) : Listing fiftyRows entity where
  rows := (range 50).map fun i : Nat => (i + 1, ⟨.other, 1⟩)
  nodup := by decide +kernel
  mem_iff i r := by
    show _ ↔ (if 1 ≤ i ∧ i ≤ 50 then some ⟨.other, 1⟩ else none) = some r
    rw [mem_map, Option.ite_none_right_eq_some]
    constructor
    · rintro ⟨n, hn, ⟨⟩⟩
      have hlt := mem_range.mp hn
      exact ⟨by omega, rfl⟩
    · rintro ⟨hi, ⟨⟩⟩
      exact ⟨(i - 1).toNat, mem_range.mpr (by omega), Prod.ext (by dsimp only; omega) rfl⟩

/-- The planner for SQLite, and a condition that keeps every row. -/
def keepAll : Executor VersionMember Unit where
  threshold := 50
  maxScanRows := 0
  maxRows := 0
  isWherePushable _ := true
  isGoPathSupported _ := true
  evalCondition _ _ := true
  translateExpr _ := some fun _ => true
  filterByTenant _ := true
  sqlTenant := some fun _ => true
  withVersion _ v := v
  validate _ := none

/-- A deletion of all blobs. -/
theorem mutation_reaches_delete :
    keepAll.ActsOn versions (fifty "note") () .delete (fifty "note").rows :=
  (mutation_reaches_iff keepAll versions fiftyRows "note" (fifty "note") () .delete _ rfl).mpr
    ⟨nofun, by decide +kernel, nofun⟩

/-- With fifty rows a deletion of an adapted entity and an update of a blob entity do not act on
the rows that the query returns. -/
theorem pushed_mutation_misses :
    (keepAll.executeSelect versions (fifty "form") () = .ok (fifty "form").rows ∧
      ¬ keepAll.ActsOn versions (fifty "form") () .delete (fifty "form").rows) ∧
    keepAll.executeSelect versions (fifty "note") () = .ok (fifty "note").rows ∧
      ¬ keepAll.ActsOn versions (fifty "note") () (.update id) (fifty "note").rows := by
  refine ⟨⟨rfl, ?_⟩, rfl, ?_⟩
  · rintro ⟨t', h⟩
    cases congrArg Prod.snd (Except.ok.inj h)
  · rintro ⟨t', h⟩
    cases h

end Executor

end Xolu.Oql
