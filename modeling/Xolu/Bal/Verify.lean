/-
# The ledger's own verifiers (pkg/bal/verify.go)

`verifyChains` walks the journal account by account and reports every row that does not
continue the row before it; the first retained row of an account may start from the
balance of a checkpoint instead of from nothing.  The fold oracle compares two
fingerprints: balances derived from the latest checkpoints and the journal after them,
and the balances table, each side leaving out accounts it takes for unmoved.

`noFalseAlarm_run` gives conditions on a run under which neither verifier complains about
it.  Pruning goes by time while the chain goes by entry id, so the part of the argument
that is new here is that every prune cuts a prefix of each chain (`PrunedTo`).
-/
import Xolu.Bal.Prune
import Xolu.Lib.Fingerprint

namespace Xolu.Bal

open List Num64 Instant Chronicle Dxp Keyed Runs Tables Entry

/-! ### The verifiers -/

/-- The columns of a journal row that the chain verifier reads. -/
structure JournalRow where
  entryId : Int
  key : Int
  amount : Int
  previousBalance : Int
  currentBalance : Int
  version : Int
deriving DecidableEq, Repr

/-- An entry as a row of the table. -/
def Entry.toRow (e : Entry) : JournalRow where
  entryId := e.entryId
  key := e.key
  amount := e.amount
  previousBalance := e.previousBalance
  currentBalance := e.currentBalance
  version := e.version

/-- A reported row. -/
structure ChainBreak where
  key : Int
  entryId : Int
  detail : String
deriving DecidableEq, Repr

/-- The last row seen of each account: its current balance and version. -/
abbrev Tails := Int → Option (Int × Int)

/-- The breaks one row adds; `pruned` is `hasPrecedingCheckpoint`. -/
def rowBreaks (pruned : Int → Int → Bool) (tails : Tails) (r : JournalRow) : List ChainBreak :=
  let prev := r.previousBalance
  let amount := r.amount
  let cur := r.currentBalance
  let ver := r.version
  -- Go adds with wrap-around
  (if wrap (prev + amount) ≠ cur then
    [⟨r.key, r.entryId, s!"arithmetic: previous {prev} + amount {amount} != current {cur}"⟩]
  else []) ++
  match tails r.key with
  | some (current, version) =>
    (if prev ≠ current then
      [⟨r.key, r.entryId, s!"linkage: previous {prev} != prior entry's current {current}"⟩]
    else []) ++
    (if ver ≠ wrap (version + 1) then
      [⟨r.key, r.entryId, s!"version gap: {ver} after {version}"⟩]
    else [])
  | none =>
    -- the prefix may have been pruned up to a checkpoint
    if ver ≠ 1 ∧ pruned r.key prev = false then
      [⟨r.key, r.entryId, s!"first entry has version {ver}, want 1"⟩]
    else []

/-- The loop over the rows. -/
def verifyRows (pruned : Int → Int → Bool) : Tails → List JournalRow → List ChainBreak
  | _, [] => []
  | tails, r :: rs =>
    rowBreaks pruned tails r ++
      verifyRows pruned (Function.update tails r.key (some (r.currentBalance, r.version))) rs

/-- `ORDER BY account_key, entry_id`. -/
def tableOrder (r s : JournalRow) : Prop := r.key < s.key ∨ r.key = s.key ∧ r.entryId ≤ s.entryId
deriving Decidable

/-- `VerifyChains`, over any contents of the journal. -/
def verifyTable (pruned : Int → Int → Bool) (rows : List JournalRow) : List ChainBreak :=
  verifyRows pruned (fun _ => none) (rows.insertionSort tableOrder)

variable (t : Tables)

/-- `hasPrecedingCheckpoint`: a usable checkpoint of the account with that balance. -/
def Tables.hasPrecedingCheckpoint (key previous : Int) : Bool :=
  t.checkpoints.any fun c => c.key == key && !c.stale && c.balance.val == previous

def Tables.verifyChains : List ChainBreak :=
  verifyTable t.hasPrecedingCheckpoint (t.journal.map toRow)

/-- One line for each account, sorted. -/
def fingerprint (lines : List (Nat × Int)) : String :=
  "\n".intercalate ((lines.map fun (key, sum) => s!"{key} {sum}").insertionSort fun x y => x ≤ y)

/-- The accounts the derived side lists: those with journal rows or a checkpoint. -/
def Tables.foldKeys : List Nat :=
  (t.journal.map Entry.key ++ (t.checkpoints.filter (!·.stale)).map Checkpoint.key).dedup

/-- The derived balance of an account.  The journal is summed whole before it is summed
again after the checkpoint, and either sum can fail. -/
def Tables.foldLine (key : Nat) : Option Int :=
  match Sql.sum 0 ((rowsOf t.journal key).map Entry.amount) with
  | none => none
  | some sum =>
    match t.latestCheckpoint key (fun _ => true) with
    | none => some sum
    | some c =>
      match c.balance, Sql.sum 0 ((after t.journal key (ofUnix c.atUnix)).map Entry.amount) with
      | .int balance, some afterSum => some (wrap (balance + afterSum))
      | _, _ => none

/-- `GlobalFoldOracle.Derive`; `none` is an error. -/
def Tables.foldDerive : Option String :=
  (t.foldKeys.mapM fun key => (t.foldLine key).map fun sum => (key, sum)).map fingerprint

/-- `GlobalFoldOracle.Current`. -/
def Tables.foldCurrent : String :=
  -- accounts that never moved have version 0 and are left out
  fingerprint ((t.balances.filter (0 < ·.version)).map fun b => (b.key, b.value))

/-- Neither verifier complains. -/
def NoFalseAlarm : Prop := t.foldDerive = some t.foldCurrent ∧ t.verifyChains = []
deriving Decidable

/-! ### Rows that link up -/

section

variable (pruned : Int → Int → Bool)

/-- The row goes on from the last one of its account. -/
def JournalRow.Continues (tail : Option (Int × Int)) (r : JournalRow) : Prop :=
  wrap (r.previousBalance + r.amount) = r.currentBalance ∧
    match tail with
    | some (current, version) => r.previousBalance = current ∧ r.version = wrap (version + 1)
    | none => r.version = 1 ∨ pruned r.key r.previousBalance = true

/-- The rows of one account link up after `tail`. -/
def LinkedFrom : Option (Int × Int) → List JournalRow → Prop
  | _, [] => True
  | tail, r :: rs =>
    r.Continues pruned tail ∧ LinkedFrom (some (r.currentBalance, r.version)) rs

/-- The rows of an account, in the order of their entry ids. -/
def accountRows (rows : List JournalRow) (key : Int) : List JournalRow :=
  (rows.filter fun r => r.key = key).insertionSort fun r s => r.entryId ≤ s.entryId

variable {pruned} {tails : Tails} {rs : List JournalRow}

theorem rowBreaks_eq_nil_iff {r : JournalRow} :
    rowBreaks pruned tails r = [] ↔ r.Continues pruned (tails r.key) := by
  unfold rowBreaks JournalRow.Continues
  rw [append_eq_nil_iff]
  apply and_congr
  · by_cases h : wrap (r.previousBalance + r.amount) = r.currentBalance <;> simp [h]
  · rcases tails r.key with _ | ⟨c, v⟩
    · by_cases h : r.version = 1 <;> simp [h]
    · rw [append_eq_nil_iff]
      apply and_congr
      · by_cases h : r.previousBalance = c <;> simp [h]
      · by_cases h : r.version = wrap (v + 1) <;> simp [h]

/-- The walk reports nothing iff the rows of each account link up, in whatever order the
accounts come. -/
theorem verifyRows_eq_nil_iff : verifyRows pruned tails rs = [] ↔
    ∀ k, LinkedFrom pruned (tails k) (rs.filter fun r => r.key = k) := by
  induction rs generalizing tails with
  | nil => simp [verifyRows, LinkedFrom]
  | cons r rs ih =>
    have hself : (r :: rs).filter (fun s => s.key = r.key) =
        r :: rs.filter fun s => s.key = r.key :=
      filter_cons_of_pos (by simp)
    have hother : ∀ k, k ≠ r.key →
        (r :: rs).filter (fun s => s.key = k) = rs.filter fun s => s.key = k :=
      fun k hk => filter_cons_of_neg (by simpa using Ne.symm hk)
    -- the account of the row, and the others
    have hsplit := Function.forall_update_iff tails (a := r.key) (b := tails r.key)
      fun k x => LinkedFrom pruned x ((r :: rs).filter fun s => s.key = k)
    rw [Function.update_eq_self, hself] at hsplit
    rw [verifyRows, append_eq_nil_iff, rowBreaks_eq_nil_iff, ih, hsplit,
      Function.forall_update_iff tails fun k x => LinkedFrom pruned x (rs.filter (·.key = k)),
      LinkedFrom, and_assoc]
    refine and_congr_right fun _ => and_congr_right fun _ => forall₂_congr fun k hk => ?_
    rw [hother k hk]

instance : Std.Total tableOrder := ⟨fun r s => by unfold tableOrder; omega⟩

instance : IsTrans JournalRow tableOrder := ⟨fun r s u => by unfold tableOrder; omega⟩

/-- Sorting by account first does not reorder the rows of one account. -/
theorem filter_insertionSort (hpk : UniqueKey JournalRow.entryId rs) (k : Int) :
    (rs.insertionSort tableOrder).filter (fun r => r.key = k) = accountRows rs k := by
  have hperm : ((rs.insertionSort tableOrder).filter fun r => r.key = k).Perm (accountRows rs k) :=
    ((perm_insertionSort tableOrder rs).filter _).trans (perm_insertionSort _ _).symm
  have hmem : ∀ {r}, r ∈ accountRows rs k → r ∈ rs := fun hr =>
    (mem_filter.mp ((perm_insertionSort _ _).subset hr)).1
  refine hperm.eq_of_pairwise ?_ ?_ (pairwise_insertionSort _ _)
  · intro r s hr hs hrs hsr
    exact hpk.eq_of_key (hmem (hperm.subset hr)) (hmem hs) (le_antisymm hrs hsr)
  · apply ((pairwise_insertionSort tableOrder rs).filter _).imp_of_mem
    intro r s hr hs hrs
    have hkr : r.key = k := by simpa using (mem_filter.mp hr).2
    have hks : s.key = k := by simpa using (mem_filter.mp hs).2
    -- one account, so the order is that of the entry ids
    rcases hrs with h | h
    · omega
    · exact h.2

/-- An empty report: the rows of every account link up. -/
theorem verifyTable_eq_nil_iff (hpk : UniqueKey JournalRow.entryId rs) :
    verifyTable pruned rs = [] ↔ ∀ k, LinkedFrom pruned none (accountRows rs k) := by
  rw [verifyTable, verifyRows_eq_nil_iff]
  simp only [filter_insertionSort hpk]

end

/-! ### Chains of retained rows -/

section

variable {t : Tables} {l : List Entry}

section

variable (hs : l.Pairwise fun e f => e.entryId < f.entryId)

include hs

theorem uniqueKey_toRow : UniqueKey JournalRow.entryId (l.map toRow) := by
  unfold UniqueKey
  rw [map_map]
  exact pairwise_map.mpr (hs.imp fun h => Nat.cast_injective.ne h.ne)

theorem accountRows_toRow (k : Nat) : accountRows (l.map toRow) k = (rowsOf l k).map toRow := by
  have hfilter : ((l.map toRow).filter fun r => r.key = (k : Int)) = (rowsOf l k).map toRow := by
    rw [filter_map]
    refine congrArg _ (filter_congr fun e _ => ?_)
    rw [Bool.eq_iff_iff]
    simp [toRow]
  rw [accountRows, hfilter]
  refine Pairwise.insertionSort_eq (pairwise_map.mpr ((hs.filter _).imp fun h => ?_))
  exact Nat.cast_le.mpr h.le

end

variable {rs : List Entry} {n : Nat}

/-- Balances along a chain stay within the absolute amounts of its start, and so do versions. -/
theorem Chain.bounds {prev : Int} (h : Chain prev n rs) (hne : ∀ e ∈ rs, e.amount ≠ 0) :
    ∀ e ∈ rs, |e.currentBalance - prev| ≤ (rs.map fun e => |e.amount|).sum ∧
      (e.version : Int) ≤ n + (rs.map fun e => |e.amount|).sum := by
  induction rs generalizing prev n with
  | nil => simp
  | cons f rs ih =>
    obtain ⟨hv, hp, hc, hrest⟩ := h
    rw [forall_mem_cons] at hne
    have hnonneg : 0 ≤ (rs.map fun e => |e.amount|).sum :=
      sum_nonneg fun y hy => by
        obtain ⟨z, -, rfl⟩ := mem_map.mp hy
        exact abs_nonneg _
    have hf : f.currentBalance - prev = f.amount := by omega
    have hpos := abs_pos.mpr hne.1
    intro e he
    rw [map_cons, sum_cons]
    rcases mem_cons.mp he with rfl | he
    · rw [hf]
      omega
    · have h₁ := ih hrest hne.2 e he
      have h₂ := abs_add_le (e.currentBalance - f.currentBalance) f.amount
      rw [show e.currentBalance - f.currentBalance + f.amount = e.currentBalance - prev by
        omega] at h₂
      omega

theorem linkedFrom_some {pruned : Int → Int → Bool} {p : Int} (h : Chain p n rs)
    (hr : ∀ e ∈ rs, InRange e.currentBalance ∧ InRange e.version) :
    LinkedFrom pruned (some (p, n)) (rs.map toRow) := by
  induction rs generalizing p n with
  | nil => trivial
  | cons e rs ih =>
    obtain ⟨hv, hp, hc, hrest⟩ := h
    rw [forall_mem_cons] at hr
    have hnext := ih hrest hr.2
    rw [← hv] at hnext
    have hver : (e.version : Int) = wrap (n + 1) := by
      rw [← wrap_of_inRange hr.1.2, hv, Nat.cast_succ]
    have harith : wrap (e.previousBalance + e.amount) = e.currentBalance := by
      rw [hc, wrap_of_inRange hr.1.1]
    exact ⟨⟨harith, hp, hver⟩, hnext⟩

/-- A chain that does not start at version 1 needs a checkpoint with its start balance. -/
theorem linkedFrom_none {k : Nat} {p : Int} (h : Chain p n rs) (hk : ∀ e ∈ rs, e.key = k)
    (hr : ∀ e ∈ rs, InRange e.currentBalance ∧ InRange e.version)
    (hstart : n = 0 ∨ t.hasPrecedingCheckpoint k p = true) :
    LinkedFrom t.hasPrecedingCheckpoint none (rs.map toRow) := by
  cases rs with
  | nil => trivial
  | cons e rs =>
    obtain ⟨⟨harith, hp, hv⟩, hrest⟩ := linkedFrom_some h hr
    refine ⟨⟨harith, ?_⟩, hrest⟩
    rcases hstart with rfl | hpre
    · exact .inl hv
    · refine .inr ?_
      rw [hp, show e.toRow.key = k from congrArg _ (hk e mem_cons_self)]
      exact hpre

/-! ### Prunes that cut a chain -/

/-- The journal has exactly the rows of the checkpoint's account dated after it, and
these are also its last rows by entry id. -/
@[mk_iff] structure PrunedTo (l : List Entry) (t : Tables) (c : Checkpoint) : Prop where
  rows : ∀ e ∈ l, e.key = c.key → (e ∈ t.journal ↔ ofUnix c.atUnix < e.instant)
  cut : ∀ e ∈ l, ∀ f ∈ l, e.key = c.key → f.key = c.key →
    e.instant ≤ ofUnix c.atUnix → ofUnix c.atUnix < f.instant → e.entryId < f.entryId

/-- What the verifiers rely on beyond sound and covered books. -/
structure Intact (l : List Entry) (t : Tables) : Prop where
  /-- An account with a checkpoint has been journaled. -/
  moved : ∀ c ∈ t.checkpoints, ∃ e ∈ l, e.key = c.key
  /-- An account's journal is whole, or cut at one of its checkpoints. -/
  cuts : ∀ k, (∀ e ∈ l, e.key = k → e ∈ t.journal) ∨ ∃ c ∈ t.checkpoints, c.key = k ∧ PrunedTo l t c
  nonzero : ∀ e ∈ l, e.amount ≠ 0

/-- Rows before a cut in time, then rows after it, if the cut respects the order. -/
theorem eq_filter_append_filter {p : Entry → Bool}
    (hs : l.Pairwise fun e f => e.entryId < f.entryId)
    (hcut : ∀ e ∈ l, ∀ f ∈ l, p e = true → p f = false → e.entryId < f.entryId) :
    l = l.filter p ++ l.filter (fun e => !p e) := by
  refine Perm.eq_of_pairwise (fun e f _ _ h h' => absurd h h'.not_gt) hs ?_
    (filter_append_perm p l).symm
  -- a row past the cut comes after those before it
  refine pairwise_append.mpr ⟨hs.filter _, hs.filter _, fun e he f hf => ?_⟩
  obtain ⟨he, hpe⟩ := mem_filter.mp he
  obtain ⟨hf, hpf⟩ := mem_filter.mp hf
  exact hcut e he f hf hpe (by simpa using hpf)

/-- The history of a pruned account is what its checkpoint covers, then its journal. -/
theorem PrunedTo.rowsOf_eq {c : Checkpoint} (S : Sound l t) (h : PrunedTo l t c) :
    rowsOf l c.key = upTo l c.key (ofUnix c.atUnix) ++ rowsOf t.journal c.key := by
  have hsplit := eq_filter_append_filter (p := fun e => e.instant ≤ ofUnix c.atUnix)
    (S.sorted.filter (·.key == c.key)) (by
      intro e he f hf hpe hpf
      obtain ⟨he, hke⟩ := mem_rowsOf.mp he
      obtain ⟨hf, hkf⟩ := mem_rowsOf.mp hf
      exact h.cut e he f hf hke hkf (by simpa using hpe) (by simpa using hpf))
  have hjournal : (l.filter (·.key == c.key)).filter (fun e => !(e.instant ≤ ofUnix c.atUnix))
      = rowsOf t.journal c.key := by
    rw [filter_filter, ← filter_eq_of_retained S.toLedger.nodup S.retained]
    · refine filter_congr fun e he => ?_
      by_cases hk : e.key = c.key
      · have := (h.rows e (S.retained.subset he) hk).mp he
        simpa [hk] using this
      · simp [hk]
    · intro e he hp
      simp only [Bool.and_eq_true, Bool.not_eq_true', decide_eq_false_iff_not, not_le,
        beq_iff_eq] at hp
      exact (h.rows e he hp.2).mpr hp.1
  rw [hjournal] at hsplit
  exact hsplit

/-- The journal of every account passes the chain walk. -/
theorem linkedFrom_journal (S : Sound l t) (I : Intact l t) (k : Int) :
    LinkedFrom t.hasPrecedingCheckpoint none (accountRows (t.journal.map toRow) k) := by
  by_cases hacc : ∃ b ∈ t.balances, (b.key : Int) = k
  · obtain ⟨b, hb, rfl⟩ := hacc
    rw [accountRows_toRow (S.sorted.sublist S.retained)]
    have hchain := (S.books b hb).chain
    have hcur : ∀ e ∈ rowsOf l b.key, InRange e.currentBalance ∧ InRange e.version := by
      intro e he
      obtain ⟨habs, hver⟩ := hchain.bounds (fun e he => I.nonzero e (mem_rowsOf.mp he).1) e he
      rw [abs_le] at habs
      have := S.range b.key
      unfold turnover at this
      unfold InRange
      omega
    have hsub : (rowsOf t.journal b.key).Sublist (rowsOf l b.key) := S.retained.filter _
    have hkeys : ∀ e ∈ rowsOf t.journal b.key, e.key = b.key := fun e he => (mem_rowsOf.mp he).2
    rcases I.cuts b.key with hwhole | ⟨c, hc, hk, hpruned⟩
    · -- nothing deleted: the chain starts at version 1
      have hrows : rowsOf t.journal b.key = rowsOf l b.key :=
        filter_eq_of_retained S.toLedger.nodup S.retained _ fun e he hp =>
          hwhole e he (by simpa using hp)
      rw [← hrows] at hchain
      exact linkedFrom_none hchain hkeys (fun e he => hcur e (hsub.subset he)) (.inl rfl)
    · -- the chain goes on from the balance of the checkpoint
      rw [← hk] at hchain hkeys hcur hsub ⊢
      rw [hpruned.rowsOf_eq S, chain_append, zero_add] at hchain
      refine linkedFrom_none hchain.2 hkeys (fun e he => hcur e (hsub.subset he)) (.inr ?_)
      refine any_eq_true.mpr ⟨c, hc, ?_⟩
      have hexact := S.exact c hc
      unfold Exact at hexact
      simp [S.fresh c hc, hexact]
  · -- no account, no rows
    have hrows : (t.journal.map toRow).filter (fun r => r.key = k) = [] := by
      refine filter_eq_nil_iff.mpr fun r hr hk => hacc ?_
      obtain ⟨e, he, rfl⟩ := mem_map.mp hr
      have hknown := S.known e (S.retained.subset he)
      rw [← S.rows] at hknown
      obtain ⟨b, hb, hkey⟩ := mem_map.mp hknown
      exact ⟨b, hb, (congrArg _ hkey).trans (of_decide_eq_true hk)⟩
    rw [accountRows, hrows]
    trivial

theorem verifyChains_nil (S : Sound l t) (I : Intact l t) : t.verifyChains = [] :=
  (verifyTable_eq_nil_iff (uniqueKey_toRow (S.sorted.sublist S.retained))).mpr
    (linkedFrom_journal S I)

/-! ### The fold oracle -/

theorem fingerprint_perm {xs ys : List (Nat × Int)} (h : xs.Perm ys) :
    fingerprint xs = fingerprint ys :=
  Fingerprint.ofLines_perm (h.map _)

theorem mapM_eq_some {α β : Type} {f : α → Option β} {g : α → β} {xs : List α}
    (h : ∀ x ∈ xs, f x = some (g x)) : xs.mapM f = some (xs.map g) := by
  induction xs with
  | nil => rfl
  | cons x xs ih =>
    rw [mapM_cons, h x mem_cons_self, ih fun y hy => h y (mem_cons_of_mem _ hy)]
    rfl

section

variable {b : Book} (S : Sound b.ever b.tables) (hcov : Covered b.ever b.tables)

include S hcov

/-- The derived balance is the balance. -/
theorem foldLine_eq {r : Balance} (hr : r ∈ b.tables.balances) :
    b.tables.foldLine r.key = some r.value := by
  have hlost := (noBalanceLost_of_sound S hcov).2 r hr
  have hsum := S.sum_retained r.key (fun _ => true)
  rw [filter_true] at hsum
  have hin : InRange r.value := by
    have h := abs_le.mp (abs_total_le (rowsOf b.ever r.key))
    have hrange := S.range r.key
    unfold turnover at hrange
    rw [(S.books r hr).value]
    unfold InRange
    omega
  unfold foldLine
  rw [hsum]
  dsimp only
  split
  · next hnone =>
    rw [hnone] at hlost
    rw [← hlost]
  · next c hc =>
    rw [hc] at hlost
    obtain ⟨v, hv, hval⟩ := hlost
    have hafter := S.sum_retained r.key (ofUnix c.atUnix < ·.instant)
    unfold after at hval ⊢
    rw [hv, hafter]
    dsimp only
    rw [hval, wrap_of_inRange hin]

/-- Both sides list the same accounts. -/
theorem mem_foldKeys (I : Intact b.ever b.tables) {k : Nat} :
    k ∈ b.tables.foldKeys ↔ ∃ r ∈ b.tables.balances, 0 < r.version ∧ r.key = k := by
  have hlist : ∀ e ∈ b.ever, ∃ r ∈ b.tables.balances, 0 < r.version ∧ r.key = e.key := by
    intro e he
    have hk := S.known e he
    rw [← S.rows] at hk
    obtain ⟨r, hr, hrk⟩ := mem_map.mp hk
    refine ⟨r, hr, ?_, hrk⟩
    rw [(S.books r hr).version]
    exact length_pos_of_mem (mem_rowsOf.mpr ⟨he, hrk.symm⟩)
  unfold foldKeys
  rw [mem_dedup, mem_append, mem_map, mem_map]
  constructor
  · rintro (⟨e, he, rfl⟩ | ⟨c, hc, rfl⟩)
    · exact hlist e (S.retained.subset he)
    · obtain ⟨e, he, hk⟩ := I.moved c (mem_of_mem_filter hc)
      rw [← hk]
      exact hlist e he
  · rintro ⟨r, hr, hv, rfl⟩
    rw [(S.books r hr).version] at hv
    obtain ⟨e, he⟩ := exists_mem_of_length_pos hv
    obtain ⟨he, hk⟩ := mem_rowsOf.mp he
    -- a journaled row is still there, or a checkpoint covers it
    by_cases hj : e ∈ b.tables.journal
    · exact .inl ⟨e, hj, hk⟩
    · obtain ⟨c, hc, hck, -⟩ := hcov e he hj
      refine .inr ⟨c, mem_filter.mpr ⟨hc, ?_⟩, hck.trans hk⟩
      simp [S.fresh c hc]

theorem foldDerive_eq (I : Intact b.ever b.tables) :
    b.tables.foldDerive = some b.tables.foldCurrent := by
  have hval : ∀ k ∈ b.tables.foldKeys,
      (b.tables.foldLine k).map (fun sum => (k, sum)) = some (k, b.tables.valueOf k) := by
    intro k hk
    obtain ⟨r, hr, -, rfl⟩ := (mem_foldKeys S hcov I).mp hk
    rw [foldLine_eq S hcov hr, S.valueOf hr]
    rfl
  unfold foldDerive foldCurrent
  rw [mapM_eq_some hval, Option.map_some]
  congr 1
  have hcur : (b.tables.balances.filter (0 < ·.version)).map (fun r => (r.key, r.value))
      = ((b.tables.balances.filter (0 < ·.version)).map Balance.key).map
          fun k => (k, b.tables.valueOf k) := by
    rw [map_map]
    refine map_congr_left fun r hr => ?_
    rw [Function.comp_apply, S.valueOf (mem_of_mem_filter hr)]
  rw [hcur]
  -- the same accounts on both sides; the lines are sorted anyway
  refine fingerprint_perm (Perm.map _ ?_)
  refine (perm_ext_iff_of_nodup (nodup_dedup _) ?_).mpr fun k => ?_
  · exact S.balanceKeys.sublist (filter_sublist.map _)
  · refine (mem_foldKeys S hcov I).trans ?_
    simp [and_assoc]

end

end

/-! ### Runs -/

namespace Book

/-- Where pruning in time cuts an account's chain, it cuts a prefix: every row it deletes
was entered before every row it keeps. -/
def CutsPrefix (t : Tables) (key : Nat) (before frontier : Int) : Prop :=
  ∀ u ∈ t.pruneCutoff key before frontier, ∀ e ∈ t.journal, ∀ f ∈ t.journal,
    e.key = key → f.key = key → e.instant ≤ ofUnix u → ofUnix u < f.instant → e.entryId < f.entryId
deriving Decidable

/-- The step does nothing that the verifiers would take for corruption: it is
`PruneSafe`; a transfer on a pruned account is dated after the checkpoint it was pruned
to; only accounts that have been journaled are checkpointed; a prune cuts prefixes. -/
def VerifySafe (b : Book) (c : BookCmd) : Prop :=
  b.PruneSafe c ∧
  match c with
  | .transfer tenant claims now x => Store.Allows ⟨tenant, claims, b.sealer⟩ now x b.tables →
      ∀ a ∈ b.tables.accounts, a.id = x.src ∨ a.id = x.dst → ¬ b.Unpruned a.key →
        ∃ c ∈ b.tables.checkpoints, c.key = a.key ∧ PrunedTo b.ever b.tables c ∧
          c.atUnix < unix x.instant
  | .checkpoint id _ => ∀ a ∈ b.tables.accounts, a.id = id → ∃ e ∈ b.ever, e.key = a.key
  | .sealPeriod _ =>
      ∀ a ∈ b.tables.accounts, a.postable = true → ∃ e ∈ b.ever, e.key = a.key
  | .pruneJournal before => ∀ s ∈ b.sealer, ∀ a ∈ b.tables.accounts, a.postable = true →
      CutsPrefix b.tables a.key before s.frontier
  | .define _ => True

end Book

section

variable {l : List Entry} {t t' : Tables} {c : Checkpoint}

/-- A cut only depends on the checkpoint's place. -/
theorem PrunedTo.congr {c' : Checkpoint} (h : PrunedTo l t c) (hk : c'.key = c.key)
    (hu : c'.atUnix = c.atUnix) (hj : t'.journal = t.journal) : PrunedTo l t' c' where
  rows := by rw [hk, hu, hj]; exact h.rows
  cut := by rw [hk, hu]; exact h.cut

/-- A row dated after the cut does not disturb it. -/
theorem PrunedTo.append {rs : List Entry} (S : Sound l t)
    (h : PrunedTo l t c) (hj : t'.journal = t.journal ++ rs)
    (hnew : ∀ e ∈ rs, t.seq < e.entryId)
    (hlate : ∀ e ∈ rs, e.key = c.key → ofUnix c.atUnix < e.instant) :
    PrunedTo (l ++ rs) t' c where
  rows := by
    intro e he hk
    rw [hj, mem_append]
    rcases mem_append.mp he with he | he
    · rw [← h.rows e he hk]
      refine or_iff_left fun hrs => ?_
      have := hnew e hrs
      have := S.seq e he
      omega
    · exact iff_of_true (.inr he) (hlate e he hk)
  cut := by
    intro e he f hf hke hkf hei hfi
    have he' : e ∈ l := by
      rcases mem_append.mp he with he | he
      · exact he
      · have := hlate e he hke
        omega
    rcases mem_append.mp hf with hf | hf
    · exact h.cut e he' f hf hke hkf hei hfi
    · have := hnew f hf
      have := S.seq e he'
      omega

/-- A journal that was cut at `c₀` and is cut again at a later checkpoint. -/
theorem PrunedTo.later {c₀ : Checkpoint} (h : PrunedTo l t c₀) (hk : c.key = c₀.key)
    (hlt : c₀.atUnix < c.atUnix)
    (hmem : ∀ e, e ∈ t'.journal ↔ e ∈ t.journal ∧ (e.key = c.key → ofUnix c.atUnix < e.instant))
    (hcut : ∀ e ∈ t.journal, ∀ f ∈ t.journal, e.key = c.key → f.key = c.key →
      e.instant ≤ ofUnix c.atUnix → ofUnix c.atUnix < f.instant → e.entryId < f.entryId) :
    PrunedTo l t' c where
  rows := by
    intro e he hke
    rw [hmem, h.rows e he (hke.trans hk)]
    refine ⟨fun h => h.2 hke, fun h => ⟨?_, fun _ => h⟩⟩
    unfold ofUnix at *
    omega
  cut := by
    intro e he f hf hke hkf hei hfi
    have hfj : f ∈ t.journal := by
      rw [h.rows f hf (hkf.trans hk)]
      unfold ofUnix at *
      omega
    -- a row that is still there goes with this cut, one that is not went with the first
    by_cases hej : e ∈ t.journal
    · exact hcut e hej f hfj hke hkf hei hfi
    · rw [h.rows e he (hke.trans hk)] at hej
      refine h.cut e he f hf (hke.trans hk) (hkf.trans hk) (not_lt.mp hej) ?_
      unfold ofUnix at *
      omega

theorem Intact.posted {x : Transfer} {cs cd : Int} {a b : Account} {ra rb : Balance}
    (S : Sound l t) (I : Intact l t) (p : Posted t x cs cd a ra b rb t') (hpos : 0 < x.amount)
    (hlate : ∀ k, k = a.key ∨ k = b.key → ¬ (∀ e ∈ l, e.key = k → e ∈ t.journal) →
      ∃ c ∈ t.checkpoints, c.key = k ∧ PrunedTo l t c ∧ c.atUnix < unix x.instant) :
    Intact (l ++ x.entries t.seq (x.debited ra) (x.credited rb)) t' := by
  have hnew : ∀ e ∈ x.entries t.seq (x.debited ra) (x.credited rb),
      t.seq < e.entryId ∧ e.instant = x.instant ∧ (e.key = a.key ∨ e.key = b.key) := by
    intro e he
    rcases Transfer.mem_entries.mp he with rfl | rfl
    · exact ⟨by simp [Transfer.entry], rfl, .inl p.debited.key⟩
    · exact ⟨by simp [Transfer.entry], rfl, .inr p.credited.key⟩
  have hck : ∀ c ∈ t.checkpoints, ∃ c' ∈ t'.checkpoints, c'.key = c.key ∧ c'.atUnix = c.atUnix := by
    intro c hc
    rw [p.checkpoints]
    exact ⟨_, mem_map_of_mem (mem_map_of_mem hc), by simp, by simp⟩
  refine ⟨?_, ?_, ?_⟩
  · intro c hc
    rw [p.checkpoints, map_map] at hc
    obtain ⟨c₀, hc₀, rfl⟩ := mem_map.mp hc
    obtain ⟨e, he, hk⟩ := I.moved c₀ hc₀
    exact ⟨e, mem_append_left _ he, by simpa using hk⟩
  · intro k
    by_cases hwhole : ∀ e ∈ l, e.key = k → e ∈ t.journal
    · refine .inl fun e he hk => ?_
      rw [p.journal, mem_append]
      rcases mem_append.mp he with he | he
      · exact .inl (hwhole e he hk)
      · exact .inr he
    · refine .inr ?_
      -- a touched account is pruned to a checkpoint before the transfer
      obtain ⟨c, hc, hk, hp, hbefore⟩ : ∃ c ∈ t.checkpoints, c.key = k ∧ PrunedTo l t c ∧
          (k = a.key ∨ k = b.key → c.atUnix < unix x.instant) := by
        by_cases htouched : k = a.key ∨ k = b.key
        · obtain ⟨c, hc, hk, hp, hlt⟩ := hlate k htouched hwhole
          exact ⟨c, hc, hk, hp, fun _ => hlt⟩
        · obtain ⟨c, hc, hk, hp⟩ := (I.cuts k).resolve_left hwhole
          exact ⟨c, hc, hk, hp, fun h => absurd h htouched⟩
      have hp' : PrunedTo (l ++ x.entries t.seq (x.debited ra) (x.credited rb)) t' c := by
        refine hp.append S p.journal (fun e he => (hnew e he).1) fun e he hke => ?_
        obtain ⟨-, hi, htouch⟩ := hnew e he
        rw [hke, hk] at htouch
        have hlt := hbefore htouch
        unfold unix at hlt
        unfold ofUnix
        omega
      obtain ⟨c', hc', hk', hu'⟩ := hck c hc
      exact ⟨c', hc', hk'.trans hk, hp'.congr hk' hu' rfl⟩
  · intro e he
    rcases mem_append.mp he with he | he
    · exact I.nonzero e he
    · rcases Transfer.mem_entries.mp he with rfl | rfl
      · exact neg_ne_zero.mpr hpos.ne'
      · exact hpos.ne'

theorem Intact.checkpoint {id : String} {at' : Int} (I : Intact l t)
    (hck : t.checkpoint id at' = (.ok (), t'))
    (hmoved : ∀ a ∈ t.accounts, a.id = id → ∃ e ∈ l, e.key = a.key) : Intact l t' := by
  obtain ⟨a, n, ha, rfl⟩ := checkpoint_spec hck
  obtain ⟨hmem, hid⟩ := account?_spec ha
  refine ⟨?_, ?_, I.nonzero⟩
  · intro c hc
    rcases mem_upsertCheckpoint.mp hc with rfl | ⟨hc, -⟩
    · exact hmoved a hmem hid
    · exact I.moved c hc
  · intro k
    refine (I.cuts k).imp_right ?_
    rintro ⟨c, hc, hk, hp⟩
    by_cases hpk : c.pk = (a.key, unix at')
    · -- the checkpoint of the cut is overwritten in its place
      have hk' : a.key = c.key := (congrArg Prod.fst hpk).symm
      have hu' : unix at' = c.atUnix := (congrArg Prod.snd hpk).symm
      exact ⟨_, mem_upsertCheckpoint.mpr (.inl rfl), hk'.trans hk, hp.congr hk' hu' rfl⟩
    · exact ⟨c, mem_upsertCheckpoint.mpr (.inr ⟨hc, hpk⟩), hk, hp.congr rfl rfl rfl⟩

/-- A prune that cuts a prefix leaves the account cut at the checkpoint it used, or at
the later one it had been cut at before. -/
theorem Intact.pruneAccount {k : Nat} {before frontier : Int} (I : Intact l t)
    (hcut : Book.CutsPrefix t k before frontier) :
    Intact l (t.pruneAccount k before frontier).2 := by
  rcases pruneAccount_spec t k before frontier with hp | ⟨u, hu, hp⟩
  · rwa [hp]
  rw [hp]
  obtain ⟨c, hc, hck, -, rfl⟩ := pruneCutoff_some hu
  have hcutu := hcut _ hu
  have hmem : ∀ e, e ∈ t.journal.filter (fun e => !(e.key == k && e.instant ≤ ofUnix c.atUnix)) ↔
      e ∈ t.journal ∧ (e.key = k → ofUnix c.atUnix < e.instant) := by
    intro e
    by_cases hk : e.key = k <;> simp [mem_filter, hk]
  refine ⟨I.moved, ?_, I.nonzero⟩
  intro j
  by_cases hjk : j = k
  · subst hjk
    refine .inr ?_
    rcases I.cuts j with hwhole | ⟨c₀, hc₀, hk₀, hp₀⟩
    · -- the journal was whole: it is now cut at the checkpoint used
      refine ⟨c, hc, hck, ?_, ?_⟩
      · intro e he hk
        rw [hmem, hck] at *
        exact ⟨fun h => h.2 hk, fun h => ⟨hwhole e he hk, fun _ => h⟩⟩
      · intro e he f hf hke hkf
        rw [hck] at hke hkf
        exact hcutu e (hwhole e he hke) f (hwhole f hf hkf) hke hkf
    · rcases le_or_gt c.atUnix c₀.atUnix with hle | hlt
      · -- an earlier checkpoint: nothing is left to delete
        refine ⟨c₀, hc₀, hk₀, ?_, hp₀.cut⟩
        intro e he hk
        rw [hmem, hp₀.rows e he hk]
        refine and_iff_left_of_imp fun h _ => ?_
        unfold ofUnix at *
        omega
      · subst hck
        exact ⟨c, hc, rfl, hp₀.later hk₀.symm hlt hmem hcutu⟩
  · -- other accounts keep their rows
    have hkeep : ∀ e, e.key = j → (e ∈ t.journal.filter
        (fun e => !(e.key == k && e.instant ≤ ofUnix c.atUnix)) ↔ e ∈ t.journal) := by
      intro e he
      rw [hmem]
      exact and_iff_left fun h => absurd (he.symm.trans h) hjk
    rcases I.cuts j with hwhole | ⟨c₀, hc₀, hk₀, hp₀⟩
    · exact .inl fun e he hk => (hkeep e hk).mpr (hwhole e he hk)
    · refine .inr ⟨c₀, hc₀, hk₀, ?_, hp₀.cut⟩
      intro e he hk
      rw [hkeep e (hk.trans hk₀)]
      exact hp₀.rows e he hk

end

namespace Book

variable {b : Book}

/-- The step lemma: a `VerifySafe` step leaves every chain whole or cut at a checkpoint. -/
theorem intact_step (S : Sound b.ever b.tables) (I : Intact b.ever b.tables) (c : BookCmd)
    (h : b.VerifySafe c) : Intact (b.step c).ever (b.step c).tables := by
  have hsafe := h.2
  have hs := step_cases S c
  generalize (b.step c).ever = l', (b.step c).tables = t' at hs
  cases hs with
  | refused => exact I
  | defined hd =>
    obtain ⟨-, -, -, policy, -, rfl⟩ := defineAccount_spec hd
    exact ⟨I.moved, fun k => (I.cuts k).imp_right fun ⟨c, hc, hk, hp⟩ =>
      ⟨c, hc, hk, hp.congr rfl rfl rfl⟩, I.nonzero⟩
  | @posted _ _ _ x _ _ a d _ _ _ hok p =>
    have hsrc := (account?_spec p.debited.account).2
    have hdst := (account?_spec p.credited.account).2
    refine I.posted S p hok.positive ?_
    rintro k (rfl | rfl) hpruned
    · exact hsafe hok _ p.mem_src (.inl hsrc) hpruned
    · exact hsafe hok _ p.mem_dst (.inr hdst) hpruned
  | checkpointed hck => exact I.checkpoint hck hsafe
  | closed hs =>
    refine (checkpointAll_induct (I := fun t => Intact b.ever t ∧
      t.accounts = b.tables.accounts) _ 0 ?_ ⟨I, rfl⟩).1
    rintro t t' id hid ⟨It, hacc⟩ hck
    have It' := It.checkpoint hck fun a ha haid => by
      rw [hacc] at ha
      exact hsafe a ha (postable_of_mem_postableIds S.toWellFormed ha (haid ▸ hid))
    obtain ⟨a, n, -, rfl⟩ := checkpoint_spec hck
    exact ⟨It', hacc⟩
  | @pruned before s hs =>
    -- rows go, checkpoints stay: what cuts a prefix at the start does so throughout
    refine (pruneAll_induct (I := fun t => Intact b.ever t ∧
      t.checkpoints = b.tables.checkpoints ∧ t.journal ⊆ b.tables.journal) _ 0 ?_
      ⟨I, rfl, fun _ h => h⟩).1
    rintro t k hk ⟨It, hcks, hsub⟩
    obtain ⟨a, ha, rfl⟩ := mem_map.mp hk
    rw [mem_filter] at ha
    have hcut : CutsPrefix t a.key before s.frontier := by
      intro u hu e he f hf
      unfold pruneCutoff at hu
      rw [hcks] at hu
      exact hsafe s hs a ha.1 ha.2 u hu e (hsub he) f (hsub hf)
    refine ⟨It.pruneAccount hcut, ?_⟩
    rcases pruneAccount_spec t a.key before s.frontier with hp | ⟨u, -, hp⟩
    · rw [hp]
      exact ⟨hcks, hsub⟩
    · rw [hp]
      exact ⟨hcks, fun e he => hsub (mem_of_mem_filter he)⟩

instance (l : List Entry) (t : Tables) (c : Checkpoint) : Decidable (PrunedTo l t c) :=
  decidable_of_iff _ (prunedTo_iff ..).symm

instance (b : Book) : DecidablePred b.VerifySafe
  | .define _ => inferInstanceAs (Decidable (_ ∧ True))
  | .transfer .. => inferInstanceAs (Decidable (_ ∧ (_ → ∀ _ ∈ _, _)))
  | .checkpoint .. | .sealPeriod _ | .pruneJournal _ => inferInstanceAs (Decidable (_ ∧ ∀ _ ∈ _, _))

end Book

/-- **The verifiers raise no false alarm** in every run whose steps are `VerifySafe`. -/
theorem noFalseAlarm_run (sealer : Option Sealer) (cmds : List BookCmd)
    (h : Along Book.step Book.VerifySafe (Book.init sealer) cmds) :
    NoFalseAlarm (run Book.step (Book.init sealer) cmds).tables := by
  have hinv := invariant_of_along
    (I := fun b => Sound b.ever b.tables ∧ Covered b.ever b.tables ∧ Intact b.ever b.tables)
    (fun b c hI hc => ⟨Book.sound_step hI.1 c hc.1.1 hc.1.2.1, Book.covered_step hI.1 hI.2.1 c,
      Book.intact_step hI.1 hI.2.2 c hc⟩)
    ⟨Sound.empty, fun e he => absurd he (by simp [Book.init]),
      fun c hc => absurd hc (by simp [Book.init]), fun k => .inl (by simp [Book.init]),
      by simp [Book.init]⟩ h
  exact ⟨foldDerive_eq hinv.1 hinv.2.1 hinv.2.2, verifyChains_nil hinv.1 hinv.2.2⟩

theorem pruneRun_noFalseAlarm :
    (run Book.step Book.monthly pruneRun).tables.foldCurrent = "1 -14\n2 14" ∧
      NoFalseAlarm (run Book.step Book.monthly pruneRun).tables :=
  ⟨by decide, noFalseAlarm_run _ pruneRun (by decide)⟩

/-- A close of two accounts that never moved. -/
def unmovedRun : List BookCmd := twoAccounts "" ++ [.sealPeriod 10000000000]

/-- A prune that leaves an earlier entry of a backdated chain behind a later one. -/
def backdatedPruneRun : List BookCmd :=
  twoAccounts "backdated" ++
    [pay 5 30000000000, pay 7 10000000000, .sealPeriod 20000000000, .pruneJournal 20000000000,
     pay 2 40000000000]

/-- The fold derives a line for each checkpoint where the balances table has none, and the
walk misses the row that was cut out of the middle. -/
theorem unmoved_and_backdated_alarm :
    (run Book.step Book.monthly unmovedRun).tables.foldDerive = some "1 0\n2 0" ∧
      (run Book.step Book.monthly unmovedRun).tables.foldCurrent = "" ∧
      (run Book.step Book.monthly backdatedPruneRun).tables.verifyChains
        = [⟨1, 5, "linkage: previous -12 != prior entry's current -5"⟩,
           ⟨1, 5, "version gap: 3 after 1"⟩,
           ⟨2, 6, "linkage: previous 12 != prior entry's current 5"⟩,
           ⟨2, 6, "version gap: 3 after 1"⟩] := by
  decide

end Xolu.Bal
