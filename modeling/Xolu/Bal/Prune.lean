/-
# Pruning loses no balance

A pruned row is one that some checkpoint of its account covers (`Covered`), and
checkpoints are never deleted.  So the history after the latest checkpoint is still in the
journal, and together with the checkpoint's balance it gives the current balance.  This
rests on the checkpoints being exact for the history, pruned rows included; a period
close recomputes them from what the journal still has, which is why the runs below do not
close after rows have been pruned.
-/
import Xolu.Bal.Period

namespace Xolu.Bal

open List Num64 Instant Chronicle Dxp Keyed Runs

/-! ### The latest checkpoint -/

/-- `WHERE account_key = ? AND stale = 0 ... ORDER BY at_unix DESC LIMIT 1`. -/
def Tables.latestCheckpoint (t : Tables) (key : Nat) (usable : Int → Bool) : Option Checkpoint :=
  ((t.checkpoints.filter fun c => c.key == key && !c.stale && usable c.atUnix).insertionSort
    fun c d => c.atUnix ≥ d.atUnix).head?

/-- The rows of an account dated after `at'`. -/
def after (l : List Entry) (key : Nat) (at' : Int) : List Entry :=
  (rowsOf l key).filter (at' < ·.instant)

section

variable {t t' : Tables} {l : List Entry} {k : Nat} {usable : Int → Bool} {c : Checkpoint}

theorem latestCheckpoint_some (h : t.latestCheckpoint k usable = some c) :
    c ∈ t.checkpoints ∧ c.key = k ∧ c.stale = false ∧ usable c.atUnix = true ∧
      ∀ d ∈ t.checkpoints, d.key = k → d.stale = false → usable d.atUnix = true →
        d.atUnix ≤ c.atUnix := by
  have hmem := mem_of_mem_head? h
  rw [mem_insertionSort] at hmem
  simp only [mem_filter, Bool.and_eq_true, beq_iff_eq, Bool.not_eq_true'] at hmem
  refine ⟨hmem.1, hmem.2.1.1, hmem.2.1.2, hmem.2.2, ?_⟩
  intro d hd hk hs ha
  have hin : d ∈ (t.checkpoints.filter fun c =>
      c.key == k && !c.stale && usable c.atUnix).insertionSort
        (fun c d => c.atUnix ≥ d.atUnix) := by
    simp [mem_insertionSort, mem_filter, hd, hk, hs, ha]
  -- the list descends, so its head is the latest
  have hdesc := pairwise_insertionSort (fun c d : Checkpoint => c.atUnix ≥ d.atUnix)
    (t.checkpoints.filter fun c => c.key == k && !c.stale && usable c.atUnix)
  obtain ⟨rest, hrest⟩ := head?_eq_some_iff.mp h
  rw [hrest] at hin hdesc
  rcases mem_cons.mp hin with rfl | hin
  · exact le_rfl
  · exact (pairwise_cons.mp hdesc).1 d hin

theorem latestCheckpoint_none (h : t.latestCheckpoint k usable = none) :
    ∀ d ∈ t.checkpoints, d.key = k → d.stale = false → usable d.atUnix = false := by
  intro d hd hk hs
  have hnil := head?_eq_none_iff.mp h
  have hperm := perm_insertionSort (fun c d : Checkpoint => c.atUnix ≥ d.atUnix)
    (t.checkpoints.filter fun c => c.key == k && !c.stale && usable c.atUnix)
  rw [hnil] at hperm
  have := filter_eq_nil_iff.mp hperm.nil_eq.symm d hd
  simpa [hk, hs] using this

/-- The rows up to an instant and those after it are all rows. -/
theorem total_upTo_add_after (l : List Entry) (k : Nat) (i : Int) :
    total (upTo l k i) + total (after l k i) = total (rowsOf l k) := by
  have hafter : after l k i = (rowsOf l k).filter fun e => !decide (e.instant ≤ i) :=
    filter_congr fun e _ => by rw [← decide_not, decide_eq_decide, not_le]
  rw [hafter, ← total_append]
  exact ((filter_append_perm _ _).map _).sum_eq

/-! ### Deleted rows are covered -/

/-- Every row of the history that the journal no longer has is dated at or before a
checkpoint of its account. -/
def Covered (l : List Entry) (t : Tables) : Prop :=
  ∀ e ∈ l, e ∉ t.journal → ∃ c ∈ t.checkpoints, c.key = e.key ∧ e.instant ≤ ofUnix c.atUnix

theorem Covered.posted {x : Transfer} {cs cd : Int} {a b : Account} {ra rb : Balance}
    (h : Covered l t) (p : Posted t x cs cd a ra b rb t') :
    Covered (l ++ x.entries t.seq (x.debited ra) (x.credited rb)) t' := by
  intro e he hout
  rw [p.journal, mem_append, not_or] at hout
  rcases mem_append.mp he with he | he
  · -- the deltas change balances, not the place of a checkpoint
    obtain ⟨c, hc, hk, hle⟩ := h e he hout.1
    have hc' := mem_map_of_mem (f := Checkpoint.adjust rb.key x.amount (unix x.instant))
      (mem_map_of_mem (f := Checkpoint.adjust ra.key (-x.amount) (unix x.instant)) hc)
    rw [← p.checkpoints] at hc'
    exact ⟨_, hc', by simpa using hk, by simpa using hle⟩
  · exact absurd he hout.2

theorem Covered.checkpoint {id : String} {at' : Int} (h : Covered l t)
    (hck : t.checkpoint id at' = (.ok (), t')) : Covered l t' := by
  obtain ⟨a, n, -, rfl⟩ := checkpoint_spec hck
  intro e he hout
  obtain ⟨c, hc, hk, hle⟩ := h e he hout
  -- the row stays, or the new one has its key and second
  by_cases hpk : c.pk = (a.key, unix at')
  · refine ⟨_, mem_upsertCheckpoint.mpr (.inl rfl), ?_, ?_⟩
    · exact (congrArg Prod.fst hpk).symm.trans hk
    · rwa [show c.atUnix = unix at' from congrArg Prod.snd hpk] at hle
  · exact ⟨c, mem_upsertCheckpoint.mpr (.inr ⟨hc, hpk⟩), hk, hle⟩

theorem pruneCutoff_some {before frontier u : Int} (h : t.pruneCutoff k before frontier = some u) :
    ∃ c ∈ t.checkpoints, c.key = k ∧ c.stale = false ∧ c.atUnix = u := by
  have hmem := mem_of_find?_eq_some h
  rw [mem_insertionSort] at hmem
  obtain ⟨c, hc, rfl⟩ := mem_map.mp hmem
  simp only [mem_filter, Bool.and_eq_true, beq_iff_eq, Bool.not_eq_true'] at hc
  exact ⟨c, hc.1, hc.2.1, hc.2.2, rfl⟩

theorem Covered.pruneAccount (h : Covered l t) (k : Nat) (before frontier : Int) :
    Covered l (t.pruneAccount k before frontier).2 := by
  rcases pruneAccount_spec t k before frontier with hp | ⟨u, hu, hp⟩
  · rwa [hp]
  rw [hp]
  intro e he hout
  by_cases hin : e ∈ t.journal
  · -- deleted just now, up to the cutoff
    simp only [mem_filter, hin, true_and, Bool.not_eq_true', Bool.and_eq_false_iff,
      not_or, Bool.not_eq_false, beq_iff_eq, decide_eq_true_eq] at hout
    obtain ⟨c, hc, hk, -, rfl⟩ := pruneCutoff_some hu
    exact ⟨c, hc, hk.trans hout.1.symm, hout.2⟩
  · exact h e he hin

end

theorem Book.covered_step {b : Book} (S : Sound b.ever b.tables) (h : Covered b.ever b.tables)
    (c : BookCmd) : Covered (b.step c).ever (b.step c).tables := by
  have hs := step_cases S c
  generalize (b.step c).ever = l', (b.step c).tables = t' at hs
  cases hs with
  | refused => exact h
  | defined hd =>
    obtain ⟨-, -, -, policy, -, rfl⟩ := defineAccount_spec hd
    exact h
  | posted hok p => exact h.posted p
  | checkpointed hck => exact h.checkpoint hck
  -- the two loops, account by account
  | closed hs => exact checkpointAll_induct _ 0 (fun t t' id _ ht hck => ht.checkpoint hck) h
  | pruned hs => exact pruneAll_induct _ 0 (fun t k _ ht => ht.pruneAccount k _ _) h

/-! ### Runs with pruning -/

/-- Every checkpoint in use holds the sum of all rows ever journaled for its account up
to it, and the latest checkpoint, or zero without one, plus the retained rows after it is
the account's balance. -/
def NoBalanceLost (b : Book) : Prop :=
  (∀ c ∈ b.tables.checkpoints, c.stale = false → Exact b.ever c) ∧
  ∀ r ∈ b.tables.balances,
    match b.tables.latestCheckpoint r.key (fun _ => true) with
    | some c => ∃ v, c.balance = .int v ∧
        v + total (after b.tables.journal r.key (ofUnix c.atUnix)) = r.value
    | none => total (rowsOf b.tables.journal r.key) = r.value

theorem noBalanceLost_of_sound {b : Book} (S : Sound b.ever b.tables)
    (h : Covered b.ever b.tables) : NoBalanceLost b := by
  refine ⟨fun c hc _ => S.exact c hc, ?_⟩
  intro r hr
  have hvalue := (S.books r hr).value
  split
  · next c hc =>
    obtain ⟨hmem, hk, -, -, hmax⟩ := latestCheckpoint_some hc
    have hexact := S.exact c hmem
    unfold Exact at hexact
    rw [hk] at hexact
    refine ⟨_, hexact, ?_⟩
    -- rows after the latest checkpoint are all retained
    have hafter : after b.tables.journal r.key (ofUnix c.atUnix)
        = after b.ever r.key (ofUnix c.atUnix) := by
      unfold after rowsOf
      rw [filter_filter, filter_filter]
      refine filter_eq_of_retained S.toLedger.nodup S.retained _ fun e he hp => ?_
      simp only [Bool.and_eq_true, decide_eq_true_eq, beq_iff_eq] at hp
      by_contra hout
      obtain ⟨d, hd, hdk, hle⟩ := h e he hout
      have hdc := hmax d hd (hdk.trans hp.2) (S.fresh d hd) rfl
      have : ofUnix d.atUnix ≤ ofUnix c.atUnix := by unfold ofUnix; omega
      omega
    rw [hafter, total_upTo_add_after, hvalue]
  · next hnone =>
    -- no checkpoint, so nothing can have been deleted
    have hrows : rowsOf b.tables.journal r.key = rowsOf b.ever r.key := by
      refine filter_eq_of_retained S.toLedger.nodup S.retained _ fun e he hp => ?_
      by_contra hout
      obtain ⟨d, hd, hdk, -⟩ := h e he hout
      have := latestCheckpoint_none hnone d hd (hdk.trans (by simpa using hp)) (S.fresh d hd)
      cases this
    rw [hrows, hvalue]

/-- Seconds and instants stay apart, in the calendar; no pruned account is checkpointed again. -/
def Book.PruneSafe (b : Book) (c : BookCmd) : Prop := b.SecondSafe c ∧ b.SealsUnpruned c ∧ c.Dated

instance (b : Book) : DecidablePred b.SealsUnpruned
  | .checkpoint .. | .sealPeriod _ => inferInstanceAs (Decidable (∀ _ ∈ _, _))
  | .define _ | .transfer .. | .pruneJournal _ => .isTrue trivial

instance (b : Book) : DecidablePred b.PruneSafe := fun _ => inferInstanceAs (Decidable (_ ∧ _ ∧ _))

/-- **Pruning loses no balance** in every run whose steps are `PruneSafe`. -/
theorem noBalanceLost_run (sealer : Option Sealer) (cmds : List BookCmd)
    (h : Along Book.step Book.PruneSafe (Book.init sealer) cmds) :
    NoBalanceLost (run Book.step (Book.init sealer) cmds) := by
  have hinv := invariant_of_along
    (I := fun b => Sound b.ever b.tables ∧ Covered b.ever b.tables)
    (fun b c hI hc => ⟨Book.sound_step hI.1 c hc.1 hc.2.1, Book.covered_step hI.1 hI.2 c⟩)
    ⟨Sound.empty, fun e he => absurd he (by simp [Book.init])⟩ h
  exact noBalanceLost_of_sound hinv.1 hinv.2

/-- A book under a fresh monthly sealer. -/
abbrev Book.monthly : Book := Book.init (some (newSealer monthWindows))

/-- A close, a prune up to it, and transfers before and after the prune. -/
def pruneRun : List BookCmd :=
  twoAccounts "" ++
    [pay 5 10000000000, .sealPeriod 20000000000, pay 7 25000000000,
     .pruneJournal 20000000000, pay 2 30500000000]

theorem pruneRun_noBalanceLost :
    ((run Book.step Book.monthly pruneRun).tables.journal.map Entry.amount = [-7, 7, -2, 2]) ∧
      NoBalanceLost (run Book.step Book.monthly pruneRun) :=
  ⟨by decide, noBalanceLost_run _ pruneRun (by decide)⟩

/-- A close, a prune up to it, and a second close. -/
def reCloseRun : List BookCmd :=
  twoAccounts "" ++
    [pay 5 10000000000, .sealPeriod 20000000000, .pruneJournal 20000000000, .sealPeriod 30000000000]

/-- The second close checkpoints an empty journal: its balances are zero, not the sum of
what was ever journaled, and not what the balances table has. -/
theorem reCloseRun_loses_balance :
    (run Book.step Book.monthly reCloseRun).tables.latestCheckpoint 1 (fun _ => true)
        = some ⟨1, 30, .int 0, 0, false⟩ ∧
      total (upTo (run Book.step Book.monthly reCloseRun).ever 1 (ofUnix 30)) = -5 ∧
      (run Book.step Book.monthly reCloseRun).tables.journal = [] ∧
      (run Book.step Book.monthly reCloseRun).tables.balances = [⟨1, -5, 1⟩, ⟨2, 5, 1⟩] := by
  decide

end Xolu.Bal
