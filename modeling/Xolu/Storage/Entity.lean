/-
# The entity store

Documents are rows with a version, in one table for all blob entities or in a table of
their own for an adapted one.  Each write path (`createInner`, `updateInner`,
`patchInner`, `saveInner`, `commitInner` with `saveInTx`, `createInTx` and
`deleteForCommit`) runs in one transaction: an error leaves the tables as they were.

`syncGraphEdges` follows every write of a document.  It removes all edges that leave the
document and inserts those of its references, so an edge that `AddEdgeWithProps` put into
the same table is gone after the next write to its source (`explicit_stays_iff`).
-/
import Mathlib.Data.Rat.Floor
import Xolu.Lib.Num64
import Xolu.Lib.Run

namespace Xolu.Storage

open List Function
/-- An entity type and an id. -/
structure EntityKey where
  entity : String
  id : Int
  deriving DecidableEq, Repr

/-- The member `_version` of a document: a number, or anything else. -/
inductive VersionMember where
  | number (q : ℚ)
  | other
  deriving DecidableEq

/-- `int(tv)`; what is not a number leaves the zero value. -/
def VersionMember.expect : VersionMember → Int
  | .number q => if 0 ≤ q then ⌊q⌋ else ⌈q⌉
  | .other => 0

/-- A REF field of a document. -/
structure EntityRef where
  target : EntityKey
  relationship : String
  deriving DecidableEq, Repr

/-- An edge of the graph; one with properties has an id. -/
structure EntityEdge where
  source : EntityKey
  target : EntityKey
  relationship : String
  edgeID : Option Int
  deriving DecidableEq, Repr

/-- Why a write is refused. -/
inductive EntityError where
  | notFound | conflict | alreadyExists | sequence
  | document (text : String)
  | duplicateTarget (text : String)
  | refTargetMissing (source target : EntityKey)
  | invalid (text : String)
  | restricted
  | onConflict (value : String)
  | walk
  deriving DecidableEq, Repr

/-- What a transaction yields, or why it is refused. -/
abbrev Tx := Except EntityError

/-- What the store knows of documents, and its configuration.  `encode` is what is read
back of a document written beside the others; it fails where the row cannot be written.
`refers` is the probe of the REF columns of an adapted entity. -/
structure EntityStore (D : Type) where
  version : D → Option VersionMember
  strip : D → D
  setID : D → Int → D
  merge : D → D → D
  edges : D → Except String (List EntityRef)
  encode : (EntityKey → Option D) → EntityKey → D → Except String D
  adapted : String → Bool
  refers : (EntityKey → Option D) → EntityKey → String → Bool
  graphEnabled : Bool

/-- A row, with the version that every update counts up. -/
structure EntityRow (D : Type) where
  data : D
  version : Int

/-- `props` holds label and properties of the edges with an id. -/
structure EntityTables (D : Type) where
  rows : EntityKey → Option (EntityRow D)
  edges : List EntityEdge
  props : Int → Option (String × D)
  nextID : String → Option Int
  nextEdgeID : Int

variable {D : Type}

namespace EntityTables

variable (t : EntityTables D)

/-- Replace a row. -/
def put (k : EntityKey) (r : Option (EntityRow D)) : EntityTables D :=
  { t with rows := update t.rows k r }

/-- The document of a row. -/
def data (k : EntityKey) : Option D := (t.rows k).map EntityRow.data

/-- `next_id + 1` in SQLite: past the 64-bit integers it is the real `2^63`, which stays. -/
def nextSeq (n : Int) : Int := min (n + 1) 9223372036854775808

/-- The sequence goes on from its last value; a real cannot be scanned as an id. -/
def allocate (entity : String) : Tx (Int × EntityTables D) :=
  let id := ((t.nextID entity).map nextSeq).getD 1
  if id = 9223372036854775808 then .error .sequence
  else .ok (id, { t with nextID := update t.nextID entity (some id) })

/-- The sequence is kept ahead of an explicit id; `id + 1` has 64 bits. -/
def bump (k : EntityKey) : EntityTables D :=
  let id := Num64.wrap (k.id + 1)
  let next := ((t.nextID k.entity).map fun n => max n (nextSeq id)).getD id
  { t with nextID := update t.nextID k.entity (some next) }

end EntityTables

namespace EntityStore

variable (c : EntityStore D) (t : EntityTables D)

variable (k : EntityKey)

/-- The edges of a document take the place of those the row had. -/
def syncGraphEdges (d : D) : Tx (EntityTables D) :=
  if !c.graphEnabled then .ok t
  else match c.edges d with
    | .error e => .error (.duplicateTarget e)
    | .ok refs =>
      match refs.find? fun r => (t.rows r.target).isNone with
      | some r => .error (.refTargetMissing k r.target)
      | none =>
        let kept := t.edges.filter fun e => e.source ≠ k
        .ok { t with edges := kept ++ refs.map fun r => ⟨k, r.target, r.relationship, none⟩ }

/-- `INSERT` of a row that is not there. -/
def insertRow (d : D) : Tx (EntityTables D) :=
  if (t.rows k).isSome then .error .alreadyExists
  else match c.encode t.data k d with
    | .error e => .error (.document e)
    | .ok d' => .ok (t.put k (some ⟨d', 1⟩))

/-- `UPDATE ... SET _version = _version + 1`, with the version in the condition if one is
expected; `adaptedUpdate` does not tell a missing row from another version. -/
def updateRow (d : D) (expect : Option Int) : Tx (EntityTables D) :=
  match t.rows k with
  | none => .error (if c.adapted k.entity && expect.isSome then .conflict else .notFound)
  | some r =>
    if ∃ v ∈ expect, v ≠ r.version then .error .conflict
    else match c.encode t.data k d with
      | .error e => .error (.document e)
      | .ok d' => .ok (t.put k (some ⟨d', r.version + 1⟩))

/-- The version that a document asks for. -/
def expectVersion (d : D) : Option Int := (c.version d).map VersionMember.expect

/-- The create path of every writer; `_version` was removed by all but `createInner`. -/
def createRow (d : D) : Tx (EntityTables D) := do
  let t ← c.insertRow t k (c.setID d k.id)
  c.syncGraphEdges t k (c.setID d k.id)

/-- The overwrite path. -/
def overwrite (d : D) (expect : Option Int) : Tx (EntityTables D) := do
  let t ← c.updateRow t k d expect
  c.syncGraphEdges t k d

/-- A create with an id of the sequence. -/
def createInner (entity : String) (d : D) : Tx (EntityTables D) := do
  let (id, t) ← t.allocate entity
  c.createRow t ⟨entity, id⟩ d

/-- An update by id. -/
def updateInner (d : D) : Tx (EntityTables D) :=
  c.overwrite t k (c.setID (c.strip d) k.id) (c.expectVersion d)

/-- An adapted row's version is compared before the validator runs. -/
def patchInner (updates : D) (validate : D → Option String) : Tx (EntityTables D) :=
  match t.rows k with
  | none => .error .notFound
  | some r =>
    let d := c.setID (c.merge r.data updates) k.id
    if c.adapted k.entity ∧ ∃ v ∈ c.expectVersion updates, v ≠ r.version then .error .conflict
    else match validate d with
      | some e => .error (.invalid e)
      | none => c.overwrite t k (c.strip d) (c.expectVersion updates)

/-- The upsert of `saveInner` and `saveInTx`. -/
def upsert (d : D) (expect : Option Int) : Tx (EntityTables D) :=
  if (t.rows k).isSome then c.overwrite t k (c.setID (c.strip d) k.id) expect
  else c.createRow (t.bump k) k (c.strip d)

/-- `held` is the answer of `checkDxpEntityHold`. -/
def saveInner (held : Bool) (k : EntityKey) (d : D) : Tx (EntityTables D) :=
  if held then .error .conflict else c.upsert t k d (c.expectVersion d)

/-- Unlike `saveInner` it does not create a row for a given version. -/
def saveInTx (d : D) (expect : Option Int) : Tx (EntityTables D) :=
  if (t.rows k).isNone ∧ expect.isSome then .error .conflict else c.upsert t k d expect

/-- A row of an entity that restricts the deletion refers to this one. -/
def restrictReferrers (restrictedBy : List String) : Bool :=
  restrictedBy.any fun e =>
    if c.adapted e then c.refers t.data k e
    else c.graphEnabled && t.edges.any fun x => x.target = k ∧ x.source.entity = e

/-- The row goes, with the edges from it and to it. -/
def deleteInTx (restrictedBy : List String) : Tx (EntityTables D) :=
  if c.restrictReferrers t k restrictedBy then .error .restricted
  else if (t.rows k).isNone then .error .notFound
  else
    let t := t.put k none
    .ok (if c.graphEnabled then
      { t with edges := t.edges.filter fun e => e.source ≠ k ∧ e.target ≠ k } else t)

/-- A deletion with a version. -/
def deleteForCommit (expect : Option Int) (restrictedBy : List String) : Tx (EntityTables D) :=
  match t.rows k with
  | none => .error (if expect.isSome then .conflict else .notFound)
  | some r =>
    if ∃ v ∈ expect, v ≠ r.version then .error .conflict else c.deleteInTx t k restrictedBy

/-- A row that a commit creates. -/
structure CommitAppend (D : Type) where
  entity : String
  id : Option Int
  data : D
  onConflict : String

/-- A create within a transaction, with a given id or one of the sequence. -/
def createInTx (a : CommitAppend D) : Tx (EntityTables D) :=
  match a.id with
  | none => c.createInner t a.entity (c.strip a.data)
  | some id => c.createRow (t.bump ⟨a.entity, id⟩) ⟨a.entity, id⟩ (c.strip a.data)

/-- A skipped append leaves the sequence moved on, as the transaction goes on. -/
def appendInTx (a : CommitAppend D) : Tx (EntityTables D) :=
  if a.onConflict ≠ "" ∧ (a.onConflict ≠ "ignore" ∨ a.id = none) then
    .error (.onConflict a.onConflict)
  else match c.createInTx t a, a.id with
    | .error .alreadyExists, some id =>
      if a.onConflict = "ignore" then .ok (t.bump ⟨a.entity, id⟩) else .error .alreadyExists
    | r, _ => r

/-- The row that a commit writes. -/
inductive CommitTarget (D : Type) where
  | update (k : EntityKey) (data : D) (version : Option Int)
  | delete (k : EntityKey) (version : Option Int) (restrictedBy : List String)

/-- The templates are filled in; `walkOk` says that the walk, if any, went through. -/
structure CommitRequest (D : Type) where
  target : CommitTarget D
  appends : List (CommitAppend D)
  walkOk : Bool

/-- The first write of a commit. -/
def commitTarget : CommitTarget D → Tx (EntityTables D)
  | .update k d version => c.saveInTx t k d version
  | .delete k version restrictedBy => c.deleteForCommit t k version restrictedBy

/-- The target, the appends one after the other, and the walk. -/
def commitInner (held : Bool) (req : CommitRequest D) : Tx (EntityTables D) := do
  if held then throw .conflict
  let t ← c.commitTarget t req.target
  let t ← req.appends.foldlM c.appendInTx t
  if req.walkOk then pure t else throw .walk

/-- An edge with properties: the row of the same ends and label, if there is one, gets the
new id. -/
def addEdgeWithProps (source target : EntityKey) (relationship : String) (props : D) :
    EntityTables D :=
  let same (e : EntityEdge) : Prop :=
    e.source = source ∧ e.target = target ∧ e.relationship = relationship
  { t with
    edges := t.edges.filter (fun e => ¬ same e) ++
      [⟨source, target, relationship, some t.nextEdgeID⟩]
    props := update t.props t.nextEdgeID (some (relationship, props))
    nextEdgeID := t.nextEdgeID + 1 }

/-! ### Runs of writes -/

/-- The writes of the store. -/
inductive EntityOp (D : Type) where
  | create (entity : String) (data : D)
  | update (k : EntityKey) (data : D)
  | patch (k : EntityKey) (updates : D) (validate : D → Option String)
  | save (held : Bool) (k : EntityKey) (data : D)
  | commit (held : Bool) (req : CommitRequest D)
  | delete (k : EntityKey) (restrictedBy : List String)

/-- One write. -/
def exec : EntityOp D → Tx (EntityTables D)
  | .create entity d => c.createInner t entity d
  | .update k d => c.updateInner t k d
  | .patch k u validate => c.patchInner t k u validate
  | .save held k d => c.saveInner t held k d
  | .commit held req => c.commitInner t held req
  | .delete k restrictedBy => c.deleteInTx t k restrictedBy

/-- A transaction that fails is rolled back. -/
def step (t : EntityTables D) (op : EntityOp D) : EntityTables D :=
  match c.exec t op with
  | .ok t' => t'
  | .error _ => t

/-- The document that the request addresses in order to write it. -/
def EntityOp.written : EntityOp D → Option EntityKey
  | .update k _ | .patch k _ _ | .save _ k _ => some k
  | .commit _ ⟨.update k _ _, _, _⟩ => some k
  | _ => none

/-- The document that the request deletes. -/
def EntityOp.deleted : EntityOp D → Option EntityKey
  | .delete k _ => some k
  | .commit _ ⟨.delete k _ _, _, _⟩ => some k
  | _ => none

/-- The request goes through and writes the source of the edge. -/
def Rewrites (e : EntityEdge) (t : EntityTables D) (op : EntityOp D) : Prop :=
  op.written = some e.source ∧ ∃ t', c.exec t op = .ok t'

/-! ### What a write does to an edge with an id -/

/-- The source stays a row, the properties are the same, and `e` is in the table if it was
and `stays`. -/
structure Frame (e : EntityEdge) (t t' : EntityTables D) (stays : Prop) : Prop where
  source : (t.rows e.source).isSome → (t'.rows e.source).isSome
  props : t'.props = t.props
  edges : e ∈ t'.edges ↔ e ∈ t.edges ∧ stays

variable {c t} {t' t'' : EntityTables D} {e : EntityEdge} {k : EntityKey} {d : D}

theorem Frame.refl : Frame e t t True := ⟨id, rfl, by simp⟩

theorem Frame.trans {p q : Prop} (h : Frame e t t' p) (h' : Frame e t' t'' q) :
    Frame e t t'' (p ∧ q) where
  source hs := h'.source (h.source hs)
  props := h'.props.trans h.props
  edges := by rw [h'.edges, h.edges, and_assoc]

theorem Frame.congr {p q : Prop} (h : Frame e t t' p) (hpq : p ↔ q) : Frame e t t' q :=
  ⟨h.source, h.props, by rw [h.edges, hpq]⟩

theorem frame_put (r : EntityRow D) : Frame e t (t.put k (some r)) True where
  source hs := by
    show (update t.rows k (some r) e.source).isSome
    by_cases hk : e.source = k
    · rw [hk, update_self]; rfl
    · rwa [update_of_ne hk]
  props := rfl
  edges := (iff_of_eq (and_true _)).symm

theorem frame_bump : Frame e t (t.bump k) True := ⟨id, rfl, by simp [EntityTables.bump]⟩

theorem allocate_ok {entity : String} {id : Int} (h : t.allocate entity = .ok (id, t')) :
    t' = { t with nextID := update t.nextID entity (some id) } := by
  unfold EntityTables.allocate at h
  dsimp only at h
  split at h
  · cases h
  · cases h
    rfl

theorem frame_allocate {entity : String} {id : Int} (h : t.allocate entity = .ok (id, t')) :
    Frame e t t' True := by
  obtain rfl := allocate_ok h
  exact ⟨fun hs => hs, rfl, (iff_of_eq (and_true _)).symm⟩

theorem bind_ok {ε α β : Type} {x : Except ε α} {f : α → Except ε β} {b : β}
    (h : (x >>= f) = .ok b) : ∃ a, x = .ok a ∧ f a = .ok b := by
  cases x with
  | error e => cases h
  | ok a => exact ⟨a, rfl, h⟩

theorem insertRow_ok (h : c.insertRow t k d = .ok t') :
    t.rows k = none ∧ ∃ r, t' = t.put k (some r) := by
  unfold insertRow at h
  split at h
  · cases h
  next hrow =>
    split at h
    · cases h
    · cases h
      exact ⟨by simpa using hrow, _, rfl⟩

/-- What it takes to update a row: the row has the version that is expected, and the document can
be written beside the others. -/
theorem updateRow_eq_ok {expect : Option Int} :
    c.updateRow t k d expect = .ok t' ↔ ∃ r d', t.rows k = some r ∧
      (∀ v ∈ expect, v = r.version) ∧ c.encode t.data k d = .ok d' ∧
      t' = t.put k (some ⟨d', r.version + 1⟩) := by
  unfold updateRow
  rcases hrow : t.rows k with - | r
  · simp
  · dsimp only
    by_cases hv : ∃ v ∈ expect, v ≠ r.version
    · rw [if_pos hv]
      refine iff_of_false nofun ?_
      rintro ⟨_, d', ⟨⟩, hall, -⟩
      obtain ⟨v, hmem, hne⟩ := hv
      exact hne (hall v hmem)
    · rw [if_neg hv]
      push Not at hv
      rcases henc : c.encode t.data k d with e | d'
      · simp
      · constructor
        · rintro ⟨⟩
          exact ⟨r, d', rfl, hv, rfl, rfl⟩
        · rintro ⟨_, _, ⟨⟩, -, ⟨⟩, rfl⟩
          rfl

/-- What it takes to follow a document with its edges: its references can be read, and their
targets are there. -/
theorem sync_eq_ok : c.syncGraphEdges t k d = .ok t' ↔
    c.graphEnabled = false ∧ t' = t ∨ c.graphEnabled ∧ ∃ refs, c.edges d = .ok refs ∧
      (∀ r ∈ refs, (t.rows r.target).isSome) ∧
      t' = { t with
        edges := t.edges.filter (fun e => e.source ≠ k) ++
          refs.map fun r => ⟨k, r.target, r.relationship, none⟩ } := by
  unfold syncGraphEdges
  cases c.graphEnabled with
  | false =>
    constructor
    · rintro ⟨⟩
      exact .inl ⟨rfl, rfl⟩
    · rintro (⟨-, rfl⟩ | ⟨⟨⟩, -⟩)
      rfl
  | true =>
    rw [if_neg (by decide)]
    rcases hedges : c.edges d with e | refs
    · simp
    · dsimp only
      split
      next r hfind =>
        refine iff_of_false nofun ?_
        rintro (⟨⟨⟩, -⟩ | ⟨-, _, ⟨⟩, hall, -⟩)
        have hnone := find?_some hfind
        rw [Option.isNone_iff_eq_none] at hnone
        have hsome := hall r (mem_of_find?_eq_some hfind)
        rw [hnone] at hsome
        cases hsome
      next hfind =>
        simp only [find?_eq_none, Bool.not_eq_true, Option.isNone_eq_false_iff] at hfind
        constructor
        · rintro ⟨⟩
          exact .inr ⟨rfl, refs, rfl, hfind, rfl⟩
        · rintro (⟨⟨⟩, -⟩ | ⟨-, _, ⟨⟩, -, rfl⟩)
          rfl

/-- Edges follow a document; the rows stay. -/
theorem sync_rows (h : c.syncGraphEdges t k d = .ok t') : t'.rows = t.rows := by
  rcases sync_eq_ok.mp h with ⟨-, rfl⟩ | ⟨-, refs, -, -, rfl⟩ <;> rfl

/-- What it takes to update a document: its `_version` is that of the row, it can be written beside
the others, its references can be read, and their targets are there. -/
structure Takes (c : EntityStore D) (t : EntityTables D) (k : EntityKey) (d : D) : Prop where
  version : ∃ r ∈ t.rows k, ∀ v ∈ c.expectVersion d, v = r.version
  encoded : ∃ d', c.encode t.data k (c.setID (c.strip d) k.id) = .ok d'
  references : c.graphEnabled → ∃ refs, c.edges (c.setID (c.strip d) k.id) = .ok refs ∧
    ∀ r ∈ refs, (t.rows r.target).isSome

theorem takes_iff : c.Takes t k d ↔ ∃ t', c.updateInner t k d = .ok t' := by
  have hput : ∀ {r}, t.rows k = some r → ∀ r' k',
      ((t.put k (some r')).rows k').isSome ↔ (t.rows k').isSome := by
    intro r hrow r' k'
    show (update t.rows k (some r') k').isSome ↔ _
    by_cases hk : k' = k
    · rw [hk, update_self, hrow]
      rfl
    · rw [update_of_ne hk]
  constructor
  · rintro ⟨⟨r, hrow, hv⟩, ⟨d', henc⟩, hrefs⟩
    unfold updateInner overwrite
    rw [updateRow_eq_ok.mpr ⟨r, d', hrow, hv, henc, rfl⟩]
    cases hg : c.graphEnabled with
    | false => exact ⟨_, sync_eq_ok.mpr (.inl ⟨hg, rfl⟩)⟩
    | true =>
      obtain ⟨refs, hedges, hall⟩ := hrefs hg
      exact ⟨_, sync_eq_ok.mpr
        (.inr ⟨hg, refs, hedges, fun r hr => (hput hrow _ _).mpr (hall r hr), rfl⟩)⟩
  · rintro ⟨t', h⟩
    obtain ⟨t₁, hupd, hsync⟩ := bind_ok h
    obtain ⟨r, d', hrow, hv, henc, rfl⟩ := updateRow_eq_ok.mp hupd
    refine ⟨⟨r, hrow, hv⟩, ⟨d', henc⟩, fun hg => ?_⟩
    rcases sync_eq_ok.mp hsync with ⟨hoff, -⟩ | ⟨-, refs, hedges, hall, -⟩
    · rw [hg] at hoff
      cases hoff
    · exact ⟨refs, hedges, fun r hr => (hput hrow _ _).mp (hall r hr)⟩

/-- The edges of references have no id, so `e` is not among those inserted. -/
theorem frame_sync (hg : c.graphEnabled) (he : e.edgeID.isSome)
    (h : c.syncGraphEdges t k d = .ok t') : Frame e t t' (e.source ≠ k) := by
  rcases sync_eq_ok.mp h with ⟨hoff, -⟩ | ⟨-, refs, -, -, rfl⟩
  · rw [hg] at hoff
    cases hoff
  · refine ⟨id, rfl, ?_⟩
    have hnew : e ∉ refs.map fun r => (⟨k, r.target, r.relationship, none⟩ : EntityEdge) := by
      rintro hmem
      obtain ⟨r, -, rfl⟩ := mem_map.mp hmem
      cases he
    simp only [mem_append, hnew, or_false, mem_filter, decide_eq_true_eq]

/-- What it takes to delete a row. -/
theorem delete_eq_ok {restrictedBy : List String} :
    c.deleteInTx t k restrictedBy = .ok t' ↔ c.restrictReferrers t k restrictedBy = false ∧
      (t.rows k).isSome ∧ t' = { t.put k none with
        edges := if c.graphEnabled then
          t.edges.filter fun e => e.source ≠ k ∧ e.target ≠ k else t.edges } := by
  unfold deleteInTx
  cases c.restrictReferrers t k restrictedBy with
  | true => simp
  | false =>
    cases hrow : t.rows k with
    | none => simp
    | some r =>
      cases c.graphEnabled <;> simp [EntityTables.put, eq_comm]

section Writes

variable (hg : c.graphEnabled) (he : e.edgeID.isSome)
include hg he

variable {expect : Option Int}

theorem frame_overwrite (h : c.overwrite t k d expect = .ok t') : Frame e t t' (e.source ≠ k) := by
  obtain ⟨t₁, hupd, hsync⟩ := bind_ok h
  obtain ⟨r, d', -, -, -, rfl⟩ := updateRow_eq_ok.mp hupd
  exact ((frame_put _).trans (frame_sync hg he hsync)).congr (iff_of_eq (true_and _))

theorem frame_patch {u : D} {validate : D → Option String}
    (h : c.patchInner t k u validate = .ok t') : Frame e t t' (e.source ≠ k) := by
  unfold patchInner at h
  split at h
  · cases h
  · dsimp only at h
    split at h
    · cases h
    · split at h
      · cases h
      · exact frame_overwrite hg he h

omit he in
theorem frame_delete {restrictedBy : List String} (hsource : e.source ≠ k) (htarget : e.target ≠ k)
    (h : c.deleteInTx t k restrictedBy = .ok t') : Frame e t t' True := by
  obtain ⟨-, -, rfl⟩ := delete_eq_ok.mp h
  refine ⟨fun hs => ?_, rfl, ?_⟩
  · show (update t.rows k none e.source).isSome
    rwa [update_of_ne hsource]
  · simp [hg, hsource, htarget]

variable (hs : (t.rows e.source).isSome)
include hs

/-- A row is created where there was none, so not at the source. -/
theorem frame_createRow (h : c.createRow t k d = .ok t') : Frame e t t' True := by
  obtain ⟨t₁, hins, hsync⟩ := bind_ok h
  obtain ⟨hnone, r, rfl⟩ := insertRow_ok hins
  refine ((frame_put r).trans (frame_sync hg he hsync)).congr ?_
  rw [true_and, iff_true]
  rintro rfl
  rw [hnone] at hs
  cases hs

theorem frame_createInner {entity : String}
    (h : c.createInner t entity d = .ok t') : Frame e t t' True := by
  obtain ⟨⟨id, t₁⟩, halloc, hcreate⟩ := bind_ok h
  have hframe := frame_allocate (e := e) halloc
  exact (hframe.trans (frame_createRow hg he (hframe.source hs) hcreate)).congr
    (iff_of_eq (true_and _))

theorem frame_upsert (h : c.upsert t k d expect = .ok t') : Frame e t t' (e.source ≠ k) := by
  unfold upsert at h
  split at h
  · exact frame_overwrite hg he h
  next hnone =>
    have hne : e.source ≠ k := fun hk => hnone (hk ▸ hs)
    refine (frame_bump.trans (frame_createRow hg he (frame_bump.source hs) h)).congr ?_
    simp [hne]

variable {a : CommitAppend D}

theorem frame_createInTx (h : c.createInTx t a = .ok t') : Frame e t t' True := by
  unfold createInTx at h
  split at h
  · exact frame_createInner hg he hs h
  · exact (frame_bump.trans
      (frame_createRow hg he (frame_bump.source hs) h)).congr (iff_of_eq (true_and _))

theorem frame_append (h : c.appendInTx t a = .ok t') : Frame e t t' True := by
  unfold appendInTx at h
  split at h
  · cases h
  · split at h
    · split at h
      · cases h; exact frame_bump
      · cases h
    · exact frame_createInTx hg he hs h

theorem frame_appends {l : List (CommitAppend D)}
    (h : l.foldlM c.appendInTx t = .ok t') : Frame e t t' True := by
  induction l generalizing t with
  | nil => cases h; exact .refl
  | cons a l ih =>
    obtain ⟨t₁, ha, hl⟩ := bind_ok h
    have hframe := frame_append hg he hs ha
    exact (hframe.trans (ih (hframe.source hs) hl)).congr (iff_of_eq (true_and _))

theorem frame_commitTarget {x : CommitTarget D}
    (hdel : ∀ k v r, x = .delete k v r → e.source ≠ k ∧ e.target ≠ k)
    (h : c.commitTarget t x = .ok t') :
    Frame e t t' (∀ k d v, x = .update k d v → e.source ≠ k) := by
  cases x with
  | update k d v =>
    simp only [commitTarget, saveInTx] at h
    split at h
    · cases h
    · refine (frame_upsert hg he hs h).congr ⟨?_, fun hk => hk k d v rfl⟩
      rintro hk _ _ _ ⟨⟩
      exact hk
  | delete k v r =>
    obtain ⟨hsource, htarget⟩ := hdel k v r rfl
    simp only [commitTarget, deleteForCommit] at h
    split at h
    · cases h
    · split at h
      · cases h
      · exact (frame_delete hg hsource htarget h).congr (by simp)

theorem frame_commit {held : Bool} {req : CommitRequest D}
    (hdel : ∀ k v r, req.target = .delete k v r → e.source ≠ k ∧ e.target ≠ k)
    (h : c.commitInner t held req = .ok t') :
    Frame e t t' (∀ k d v, req.target = .update k d v → e.source ≠ k) := by
  cases held with
  | true => cases h
  | false =>
    obtain ⟨t₁, htarget, h⟩ := bind_ok h
    obtain ⟨t₂, happ, h⟩ := bind_ok h
    have h₁ := frame_commitTarget hg he hs hdel htarget
    have h₂ := frame_appends hg he (h₁.source hs) happ
    split at h
    · cases h; exact (h₁.trans h₂).congr (by simp)
    · cases h

/-- **One write.**  What a request that goes through does to an edge with an id. -/
theorem frame_exec {op : EntityOp D}
    (hdel : ∀ k ∈ op.deleted, e.source ≠ k ∧ e.target ≠ k) (h : c.exec t op = .ok t') :
    Frame e t t' (op.written ≠ some e.source) := by
  cases op with
  | create entity d =>
    exact (frame_createInner hg he hs h).congr (by simp [EntityOp.written])
  | update k d => exact (frame_overwrite hg he h).congr (by simp [EntityOp.written, eq_comm])
  | patch k u validate =>
    exact (frame_patch hg he h).congr (by simp [EntityOp.written, eq_comm])
  | save held k d =>
    cases held with
    | true => cases h
    | false => exact (frame_upsert hg he hs h).congr (by simp [EntityOp.written, eq_comm])
  | commit held req =>
    obtain ⟨x, appends, walkOk⟩ := req
    refine (frame_commit hg he hs ?_ h).congr ?_
    · rintro k v r rfl
      exact hdel k rfl
    · cases x <;> simp [EntityOp.written, eq_comm]
  | delete k r =>
    obtain ⟨hsource, htarget⟩ := hdel k rfl
    exact (frame_delete hg hsource htarget h).congr (by simp [EntityOp.written])

end Writes

/-- **Explicit edges.**  Through a run of writes that deletes neither end, an edge added with
properties stays in the table with its id, label and properties if and only if no request that
goes through writes its source. -/
theorem explicit_stays_iff (c : EntityStore D) (t : EntityTables D) (source target : EntityKey)
    (relationship : String) (props : D) (l : List (EntityOp D)) (hg : c.graphEnabled)
    (hsource : (t.rows source).isSome)
    (hdel : ∀ op ∈ l, ∀ k ∈ op.deleted, source ≠ k ∧ target ≠ k) : Runs.Along c.step (fun s op =>
        ⟨source, target, relationship, some t.nextEdgeID⟩ ∈ (c.step s op).edges ∧
          (c.step s op).props t.nextEdgeID = some (relationship, props))
        (addEdgeWithProps t source target relationship props) l ↔
      Runs.Along c.step
        (fun s op => ¬ c.Rewrites ⟨source, target, relationship, some t.nextEdgeID⟩ s op)
        (addEdgeWithProps t source target relationship props) l := by
  generalize he : (⟨source, target, relationship, some t.nextEdgeID⟩ : EntityEdge) = e
  have hid : e.edgeID.isSome := by rw [← he]; rfl
  have hends : e.source = source ∧ e.target = target := by rw [← he]; exact ⟨rfl, rfl⟩
  -- a step keeps the source and the properties, and the edge exactly if it does not rewrite
  have hstep : ∀ s op, (s.rows e.source).isSome → e ∈ s.edges →
      (∀ k ∈ op.deleted, e.source ≠ k ∧ e.target ≠ k) →
      Frame e s (c.step s op) (¬ c.Rewrites e s op) := by
    intro s op hs hmem hop
    unfold step Rewrites
    rcases hx : c.exec s op with err | s'
    · exact Frame.refl.congr (by simp)
    · exact (frame_exec hg hid hs hop hx).congr (by simp)
  refine Runs.along_iff_of_invariant
    (I := fun s => (s.rows e.source).isSome ∧ e ∈ s.edges ∧
      s.props t.nextEdgeID = some (relationship, props))
    (N := fun _ op => ∀ k ∈ op.deleted, e.source ≠ k ∧ e.target ≠ k) ?_ ?_ ?_ ?_
  · rintro s op ⟨hs, hmem, hprops⟩ hop hC
    have hf := hstep s op hs hmem hop
    exact ⟨hf.source hs, hf.edges.mpr ⟨hmem, hC⟩, by rw [hf.props]; exact hprops⟩
  · rintro s op ⟨hs, hmem, hprops⟩ hop
    have hf := hstep s op hs hmem hop
    rw [hf.edges, hf.props]
    exact ⟨fun h => h.1.2, fun h => ⟨⟨hmem, h⟩, hprops⟩⟩
  · refine ⟨by rw [hends.1]; exact hsource, ?_, by simp [addEdgeWithProps]⟩
    rw [← he]
    exact mem_append_right _ mem_cons_self
  · refine Runs.Along.of_forall fun op hop _ k hk => ?_
    rw [hends.1, hends.2]
    exact hdel op hop k hk

/-- A blob store of texts without references. -/
def plainTexts : EntityStore String where
  version _ := none
  strip d := d
  setID d _ := d
  merge _ u := u
  edges _ := .ok []
  encode _ _ d := .ok d
  adapted _ := false
  refers _ _ _ := false
  graphEnabled := true

/-- Two documents, and no edges. -/
def twoTexts : EntityTables String where
  rows k := if k = ⟨"note", 1⟩ ∨ k = ⟨"note", 2⟩ then some ⟨"text", 1⟩ else none
  edges := []
  props _ := none
  nextID _ := some 2
  nextEdgeID := 1

/-- Writes to the target leave the edge alone. -/
theorem explicit_stays_target :
    Runs.Along plainTexts.step (fun s op =>
        ⟨⟨"note", 1⟩, ⟨"note", 2⟩, "cites", some 1⟩ ∈ (plainTexts.step s op).edges ∧
          (plainTexts.step s op).props 1 = some ("cites", "page 7"))
      (addEdgeWithProps twoTexts ⟨"note", 1⟩ ⟨"note", 2⟩ "cites" "page 7")
      [.update ⟨"note", 2⟩ "new text"] :=
  (explicit_stays_iff plainTexts twoTexts ⟨"note", 1⟩ ⟨"note", 2⟩ "cites" "page 7"
    [.update ⟨"note", 2⟩ "new text"] rfl (by decide) (by simp [EntityOp.deleted])).mpr
    (Runs.Along.of_forall (by simp [Rewrites, EntityOp.written]))

/-- An update of the source, with a document of the same kind, removes the edge. -/
theorem update_drops_explicit :
    let t := addEdgeWithProps twoTexts ⟨"note", 1⟩ ⟨"note", 2⟩ "cites" "page 7"
    t.edges = [⟨⟨"note", 1⟩, ⟨"note", 2⟩, "cites", some 1⟩] ∧
      (plainTexts.step t (.update ⟨"note", 1⟩ "new text")).edges = [] := by
  decide

end EntityStore

end Xolu.Storage
