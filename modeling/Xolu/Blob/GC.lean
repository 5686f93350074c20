/-
# A sweep of the blob collector (pkg/blob/gc.go)

A sweep marks what the external source and the key aliases name, moves the other blobs of
the shards to quarantine, and deletes or restores what has been there for the grace period.
Keys come and go while it runs: `aliases i` is their directory at the `i`-th look at it.
Sidecars follow their blob and nothing depends on them; they are left out.
-/
import Xolu.Lib.Run
import Xolu.Lib.Text

namespace Xolu.Blob

open List

/-- What a sweep meets: the clock, the references, and the calls that fail. -/
structure World where
  now : Int
  external : Option (List String)
  externalFails : Bool
  aliases : Nat → List (String × String)
  readFails : Nat → Bool
  dirFails : String → Bool
  renameFails : String → Bool
  removeFails : String → Bool

/-- The shard directories with their files, and the quarantine with its times. -/
structure Store where
  shards : List (String × List String)
  pending : List (String × Int)

/-- The report, with the names of the blobs in place of their numbers. -/
structure GCReport where
  quarantined : List String := []
  deleted : List String := []
  errors : Nat := 0

/-- What the external source names; a source that fails names nothing. -/
def World.extLive (w : World) : List String := if w.externalFails then [] else w.external.getD []

/-- The digest that a key's file holds. -/
def aliasOf (data : String) : String := .ofList (Text.trimSpace data.toList)

/-- The mark phase: a key that cannot be read is passed over. -/
def World.liveSHAs (w : World) : List String :=
  w.extLive ++ ((w.aliases 0).zipIdx.filterMap fun (f, i) =>
    if w.readFails i then none else ((w.aliases (i + 1)).lookup f.1).map aliasOf).filter (· ≠ "")

/-- The name of a shard directory. -/
def isHexPrefix (s : String) : Bool :=
  s.length == 2 && s.toList.all fun c => ('0' ≤ c ∧ c ≤ '9') ∨ ('a' ≤ c ∧ c ≤ 'f')

/-- Neither a sidecar nor a temporary file. -/
def isBlob (name : String) : Bool :=
  !(".ct".toList.isSuffixOf name.toList || ".md5".toList.isSuffixOf name.toList ||
    ".".toList.isPrefixOf name.toList)

variable (w : World) (gracePeriod : Int) (s : Store)

/-- The sweep phase, over the shards that can be read. -/
def quarantine : Store × GCReport :=
  let dirs := s.shards.filter fun p => isHexPrefix p.1
  let dead p := p.2.filter fun n => isBlob n && n ∉ w.liveSHAs && !w.dirFails p.1
  let moved := (dirs.flatMap dead).filter fun n => !w.renameFails n
  ({ shards := s.shards.map fun p =>
       (p.1, p.2.filter fun n => !(isHexPrefix p.1 && n ∈ dead p && n ∈ moved))
     pending := s.pending ++ moved.map (·, w.now) },
   { quarantined := moved
     errors := dirs.countP (w.dirFails ·.1) + (dirs.flatMap dead).countP w.renameFails })

/-- Past the grace period a named blob goes back to its shard and another is deleted. -/
def purgePending : Store × GCReport :=
  if w.dirFails ".gc-pending" then (s, { errors := 1 }) else
  let expired := s.pending.filter fun q => gracePeriod ≤ w.now - q.2
  let dead := (expired.map Prod.fst).filter (· ∉ w.liveSHAs)
  let deleted := dead.filter fun n => !w.removeFails n
  let restored := expired.filter fun q => q.1 ∈ w.liveSHAs && !w.renameFails q.1
  ({ shards := s.shards ++ restored.map fun q => (.ofList (q.1.toList.take 2), [q.1])
     pending := s.pending.filter fun q => !(q ∈ expired && (q.1 ∈ deleted || q ∈ restored)) },
   { deleted, errors := dead.countP w.removeFails })

/-- Mark, sweep and purge; without a listing of the keys or of the shards nothing is done. -/
def sweepTenant : Store × GCReport :=
  if w.dirFails ".keys" || w.dirFails "." then (s, { errors := 1 }) else
  let swept := quarantine w s
  let purged := purgePending w gracePeriod swept.1
  (purged.1, ⟨swept.2.quarantined, purged.2.deleted, swept.2.errors + purged.2.errors⟩)

/-- An error of the external source is counted, and the sweep goes on without it. -/
def sweep : Store × GCReport :=
  let (s', report) := sweepTenant w gracePeriod s
  let failed := w.externalFails && w.external.isSome
  (s', { report with errors := report.errors + failed.toNat })

/-- The reads of a sweep name a digest: the external source answers with it, or a listed key
is read and holds it. -/
def World.Names (w : World) (d : String) : Prop :=
  (w.externalFails = false ∧ d ∈ w.external.getD []) ∨
    (∃ f i, (w.aliases 0)[i]? = some f ∧ w.readFails i = false ∧
      ∃ data, (w.aliases (i + 1)).lookup f.1 = some data ∧ aliasOf data = d) ∧ d ≠ ""

variable {w gracePeriod s} {d : String}

theorem mem_liveSHAs : d ∈ w.liveSHAs ↔ w.Names d := by
  have hext : d ∈ w.extLive ↔ w.externalFails = false ∧ d ∈ w.external.getD [] := by
    unfold World.extLive
    split <;> simp_all
  simp only [World.liveSHAs, World.Names, mem_append, hext, mem_filter, mem_filterMap,
    Prod.exists, mem_zipIdx_iff_getElem?, Option.ite_none_left_eq_some, Option.map_eq_some_iff,
    Bool.not_eq_true, decide_eq_true_eq]

theorem mem_quarantined : d ∈ (quarantine w s).2.quarantined ↔
    (∃ p ∈ s.shards, isHexPrefix p.1 ∧ d ∈ p.2 ∧ isBlob d ∧ ¬ w.Names d ∧ ¬ w.dirFails p.1) ∧
      ¬ w.renameFails d := by
  simp only [quarantine, mem_filter, mem_flatMap, mem_liveSHAs, decide_eq_true_eq, Bool.and_eq_true,
    Bool.not_eq_true', Bool.not_eq_true, and_assoc]

theorem not_mem_quarantined : d ∉ (quarantine w s).2.quarantined ↔
    w.Names d ∨ (w.renameFails d ∨ ¬ isBlob d ∨
      ∀ p ∈ s.shards, isHexPrefix p.1 → d ∈ p.2 → w.dirFails p.1) := by
  rw [mem_quarantined]
  constructor
  · intro h
    by_contra hcon
    push Not at hcon
    obtain ⟨hnames, hrename, hblob, p, hp, hhex, hd, hdir⟩ := hcon
    exact h ⟨⟨p, hp, hhex, hd, hblob, hnames, hdir⟩, hrename⟩
  · rintro h ⟨⟨p, hp, hhex, hd, hblob, hnames, hdir⟩, hrename⟩
    rcases h with h | h | h | h
    · exact hnames h
    · exact hrename h
    · exact h hblob
    · exact hdir (h p hp hhex hd)

theorem mem_deleted : d ∈ (purgePending w gracePeriod s).2.deleted ↔
    ¬ w.dirFails ".gc-pending" ∧ (∃ q ∈ s.pending, q.1 = d ∧ gracePeriod ≤ w.now - q.2) ∧
      ¬ w.Names d ∧ ¬ w.removeFails d := by
  unfold purgePending
  split_ifs with hdir
  · exact iff_of_false not_mem_nil fun h => h.1 hdir
  · rw [and_iff_right hdir]
    simp only [mem_filter, mem_map, mem_liveSHAs, decide_eq_true_eq, Bool.not_eq_true',
      Bool.not_eq_true, and_assoc, and_comm (a := _ ≤ _)]

/-- The quarantine of this sweep does not hold what it did not move. -/
theorem not_mem_deleted (h : d ∉ (quarantine w s).2.quarantined) :
    d ∉ (purgePending w gracePeriod (quarantine w s).1).2.deleted ↔
      w.Names d ∨ (w.dirFails ".gc-pending" ∨ w.removeFails d ∨
        ∀ q ∈ s.pending, q.1 = d → w.now - q.2 < gracePeriod) := by
  have hpending : (quarantine w s).1.pending =
      s.pending ++ (quarantine w s).2.quarantined.map (·, w.now) := rfl
  rw [mem_deleted, hpending]
  constructor
  · intro hkept
    by_contra hcon
    push Not at hcon
    obtain ⟨hnames, hdir, hremove, q, hq, hd, hgrace⟩ := hcon
    exact hkept ⟨hdir, ⟨q, mem_append_left _ hq, hd, by omega⟩, hnames, hremove⟩
  · rintro hkept ⟨hdir, ⟨q, hq, rfl, hgrace⟩, hnames, hremove⟩
    rcases hkept with hkept | hkept | hkept | hkept
    · exact hnames hkept
    · exact hdir hkept
    · exact hremove hkept
    · rcases mem_append.mp hq with hq | hq
      · have hyoung := hkept q hq rfl
        omega
      · obtain ⟨d, hd, rfl⟩ := mem_map.mp hq
        exact h hd

/-- **What a sweep spares.**  A digest is neither quarantined nor deleted iff the sweep gives
up, a read that succeeds names it, or the sweep does not come to it. -/
theorem spared_iff (w : World) (gracePeriod : Int) (s : Store) (d : String) :
    d ∉ (sweep w gracePeriod s).2.quarantined ∧ d ∉ (sweep w gracePeriod s).2.deleted ↔
      w.dirFails ".keys" ∨ w.dirFails "." ∨ w.Names d ∨
        (w.renameFails d ∨ ¬ isBlob d ∨
          ∀ p ∈ s.shards, isHexPrefix p.1 → d ∈ p.2 → w.dirFails p.1) ∧
        (w.dirFails ".gc-pending" ∨ w.removeFails d ∨
          ∀ q ∈ s.pending, q.1 = d → w.now - q.2 < gracePeriod) := by
  unfold sweep sweepTenant
  split_ifs with hdirs
  · rw [Bool.or_eq_true] at hdirs
    simp [← or_assoc, hdirs]
  · rw [Bool.or_eq_true, not_or] at hdirs
    rw [or_iff_right hdirs.1, or_iff_right hdirs.2, or_and_left, ← not_mem_quarantined]
    exact and_congr_right not_mem_deleted

/-! ### Sweeps in sequence -/

/-- A digest is named throughout a sweep: by the source, or by a key that is there and holds
it at every look at the keys. -/
def World.NamedThroughout (w : World) (d : String) : Prop :=
  d ∈ w.external.getD [] ∨
    (∃ key, ∀ i, ∃ data, (w.aliases i).lookup key = some data ∧ aliasOf data = d) ∧ d ≠ ""

/-- The source answers and every key can be read. -/
def World.Answers (w : World) : Prop := w.externalFails = false ∧ ∀ i, w.readFails i = false

theorem World.NamedThroughout.names (h : w.NamedThroughout d) (hw : w.Answers) : w.Names d := by
  rcases h with hext | ⟨⟨key, hkey⟩, hd⟩
  · exact .inl ⟨hw.1, hext⟩
  · -- the key is listed, and its file is read at the look of its position
    obtain ⟨data₀, hdata₀, -⟩ := hkey 0
    have hlisted : (key, data₀) ∈ w.aliases 0 := by
      obtain ⟨before, after, heq, -⟩ := lookup_eq_some_iff.mp hdata₀
      rw [heq]
      exact mem_append_right _ mem_cons_self
    obtain ⟨i, hi⟩ := mem_iff_getElem?.mp hlisted
    obtain ⟨data, hdata, hdigest⟩ := hkey (i + 1)
    exact .inr ⟨⟨_, i, hi, hw.2 i, data, hdata, hdigest⟩, hd⟩

/-- A sweep, or what others do to the store between two sweeps. -/
inductive Event where
  | sweep (w : World)
  | change (f : Store → Store)

/-- The store after the event. -/
def Event.step (gracePeriod : Int) (s : Store) : Event → Store
  | .sweep w => (Blob.sweep w gracePeriod s).1
  | .change f => f s

/-- The sweep neither quarantines nor deletes the digest. -/
def Event.Spares (gracePeriod : Int) (d : String) (s : Store) : Event → Prop
  | .sweep w => d ∉ (Blob.sweep w gracePeriod s).2.quarantined ∧
      d ∉ (Blob.sweep w gracePeriod s).2.deleted
  | .change _ => True

theorem spares_of_names (h : w.Names d) : (Event.sweep w).Spares gracePeriod d s := by
  simp only [Event.Spares, sweep, sweepTenant]
  split_ifs
  · exact ⟨not_mem_nil, not_mem_nil⟩
  · have hkept : d ∉ (quarantine w s).2.quarantined := not_mem_quarantined.mpr (.inl h)
    exact ⟨hkept, (not_mem_deleted hkept).mpr (.inl h)⟩

/-- Along every sequence of sweeps, whatever happens in between, a digest that is named
throughout each sweep is spared by all of them, if no read of them fails. -/
theorem spares_along (gracePeriod : Int) (s : Store) {d : String} {events : List Event}
    (h : ∀ w, .sweep w ∈ events → w.NamedThroughout d ∧ w.Answers) :
    Runs.Along (Event.step gracePeriod) (Event.Spares gracePeriod d) s events := by
  refine .of_forall fun e he s => ?_
  cases e with
  | sweep w =>
    obtain ⟨hnamed, hanswers⟩ := h w he
    exact spares_of_names (hnamed.names hanswers)
  | change f => trivial

/-- A sweep of a store without keys whose source names a digest but does not answer. -/
def unanswered (d : String) (now : Int) : World :=
  ⟨now, some [d], true, fun _ => [], fun _ => false, fun _ => false, fun _ => false, fun _ => false⟩

/-- The source fails in two sweeps an hour apart: the blob that it names throughout is
quarantined by the first and deleted by the second. -/
theorem unanswered_loses_blob :
    let d := String.ofList (replicate 64 'a')
    let first := sweep (unanswered d 0) 600000000000 ⟨[("aa", [d])], []⟩
    let second := sweep (unanswered d 3600000000000) 600000000000 first.1
    (∀ now, (unanswered d now).NamedThroughout d) ∧ first.2.quarantined = [d] ∧
      second.2.deleted = [d] ∧ second.1.shards = [("aa", [])] ∧ second.1.pending = [] := by
  refine ⟨fun now => .inl mem_cons_self, ?_⟩
  decide +kernel

end Xolu.Blob
