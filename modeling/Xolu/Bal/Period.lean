/-
# Checkpoints, period close and pruning (pkg/bal/rollup.go, seal.go, prune.go)

A checkpoint freezes an account's balance at a second.  It is created by summing the
journal up to a full-precision instant, and from then on every transfer dated, to the
second, at or before it adds its amount.  `SealPeriod` checkpoints every postable account
at the seal frontier; `PruneJournal` deletes the rows that a checkpoint covers.

`Book` is one tenant's ledger with its sealer.  Its `ever` component is a history
variable, all rows ever journaled; no operation reads it.

`Exact l c` says that checkpoint `c` holds the sum of the rows of `l` dated at or before
it, and `Exact.leg` is the one argument about a transfer and a checkpoint.
-/
import Xolu.Bal.Ledger

namespace Xolu.Bal

open List Num64 Instant Chronicle Dxp Keyed Runs Checkpoint Tables

/-! ### The operations -/

/-- The rows of an account dated at or before `at'`. -/
def upTo (l : List Entry) (key : Nat) (at' : Int) : List Entry :=
  (rowsOf l key).filter (·.instant ≤ at')

/-- The primary key of the checkpoints table. -/
def Checkpoint.pk (c : Checkpoint) : Nat × Int := (c.key, c.atUnix)

/-- `INSERT ... ON CONFLICT(account_key, at_unix) DO UPDATE`. -/
def Tables.upsertCheckpoint (t : Tables) (c : Checkpoint) : Tables :=
  { t with checkpoints :=
      if t.checkpoints.any (·.pk == c.pk) then put pk t.checkpoints c
      else t.checkpoints ++ [c] }

/-- `Checkpoint`: the sum of the account's journal up to `at'`, kept under its second. -/
def Tables.checkpoint (t : Tables) (id : String) (at' : Int) : Except BalError Unit × Tables :=
  match t.account? id with
  | none => (.error (.unknownAccount id), t)
  | some a =>
    match Sql.sum 0 ((upTo t.journal a.key at').map Entry.amount) with
    | none => (.error .integerOverflow, t)
    | some balance =>
      -- summed up to the instant, but stored under its second
      (.ok (), t.upsertCheckpoint {
        key := a.key
        atUnix := unix at'
        balance := .int balance
        entryId := ((upTo t.journal a.key at').map Entry.entryId).foldl max 0
        stale := false })

/-- The loop of `SealPeriod`: stop at the first error, keep what was written. -/
def Tables.checkpointAll (at' : Int) : List String → Nat → Tables → (Nat × Option BalError) × Tables
  | [], n, t => ((n, none), t)
  | id :: ids, n, t =>
    match t.checkpoint id at' with
    | (.error e, t') => ((n, some e), t')
    | (.ok (), t') => checkpointAll at' ids (n + 1) t'

/-- `SELECT account_id FROM accounts WHERE postable = 1`. -/
def Tables.postableIds (t : Tables) : List String := (t.accounts.filter (·.postable)).map Account.id

/-- The newest usable checkpoint of an account at or before both bounds. -/
def Tables.pruneCutoff (t : Tables) (key : Nat) (before frontier : Int) : Option Int :=
  -- ORDER BY at_unix DESC, and the first that passes both bounds
  (((t.checkpoints.filter fun c => c.key == key && !c.stale).map
    atUnix).insertionSort (· ≥ ·)).find?
      fun u => ofUnix u ≤ before && ofUnix u ≤ frontier

/-- `pruneAccountJournal`: delete the account's rows up to the cutoff. -/
def Tables.pruneAccount (t : Tables) (key : Nat) (before frontier : Int) : Nat × Tables :=
  match t.pruneCutoff key before frontier with
  | none => (0, t)
  | some u =>
    let kept := t.journal.filter fun e => !(e.key == key && e.instant ≤ ofUnix u)
    (t.journal.length - kept.length, { t with journal := kept })

/-- The loop of `PruneJournal`. -/
def Tables.pruneAll (before frontier : Int) : List Nat → Nat → Tables → Nat × Tables
  | [], n, t => (n, t)
  | k :: ks, n, t =>
    pruneAll before frontier ks (n + (t.pruneAccount k before frontier).1)
      (t.pruneAccount k before frontier).2

/-- One tenant's ledger: the tables, the seal table, the sealer in memory, and the
history of all rows ever journaled. -/
structure Book where
  tables : Tables := {}
  frontierUnix : Option Int := none
  sealer : Option Sealer := none
  ever : List Entry := []

/-- The book after a transaction on the tables; new rows are those numbered after the
old sequence. -/
def Book.commit (b : Book) (t : Tables) : Book :=
  { b with
    tables := t
    ever := b.ever ++ t.journal.filter (b.tables.seq < ·.entryId) }

def Book.sealPeriod (b : Book) (at' : Int) : (Nat × Option BalError) × Book :=
  match b.sealer with
  | none => ((0, some (.noSealer "SealPeriod")), b)
  | some s =>
    -- the frontier has moved even if a checkpoint then fails
    let frontier := (s.advanceTo at').frontier
    let r := checkpointAll frontier b.tables.postableIds 0 b.tables
    (r.1, { b.commit r.2 with
      sealer := some (s.advanceTo at')
      frontierUnix := some (unix frontier) })

def Book.pruneJournal (b : Book) (before : Int) : Except BalError Nat × Book :=
  match b.sealer with
  | none => (.error (.noSealer "PruneJournal"), b)
  | some s =>
    let keys := (b.tables.accounts.filter (·.postable)).map Account.key
    let r := pruneAll before s.frontier keys 0 b.tables
    (.ok r.1, b.commit r.2)

/-! ### The machine -/

/-- The operations on a book.  A transfer is issued through a store with any claims
cache; its sealer is the book's. -/
inductive BookCmd where
  | define (d : AccountDef)
  | transfer (tenant : String) (claims : Option MemCache) (now : Int) (x : Transfer)
  | checkpoint (id : String) (at' : Int)
  | sealPeriod (at' : Int)
  | pruneJournal (before : Int)

/-- The operation deletes no journal row. -/
def BookCmd.keepsRows : BookCmd → Bool
  | .pruneJournal _ => false
  | _ => true

/-- The outcome of a transfer on a book. -/
def Book.transfer (b : Book) (tenant : String) (claims : Option MemCache) (now : Int)
    (x : Transfer) : Except BalError (Nat × Nat) × Tables :=
  Store.transfer ⟨tenant, claims, b.sealer⟩ now x b.tables

/-- The book after a step. -/
def Book.step (b : Book) : BookCmd → Book
  | .define d => b.commit (defineAccount d b.tables).2
  | .transfer tenant claims now x => b.commit (b.transfer tenant claims now x).2
  | .checkpoint id at' => b.commit (b.tables.checkpoint id at').2
  | .sealPeriod at' => (b.sealPeriod at').2
  | .pruneJournal before => (b.pruneJournal before).2

/-! ### Sums over dated rows -/

section

variable {l m : List Entry} {k : Nat} {i : Int}

@[simp] theorem upTo_append : upTo (l ++ m) k i = upTo l k i ++ upTo m k i := by
  simp [upTo, filter_append]

theorem upTo_singleton (e : Entry) :
    upTo [e] k i = if e.key = k ∧ e.instant ≤ i then [e] else [] := by
  by_cases hk : e.key = k <;> by_cases hi : e.instant ≤ i <;> simp [upTo, rowsOf, hk, hi]

/-- The absolute amounts an account has moved, added up. -/
def turnover (l : List Entry) (key : Nat) : Int := ((rowsOf l key).map fun e => |e.amount|).sum

theorem abs_total_le (l : List Entry) : |total l| ≤ (l.map fun e => |e.amount|).sum := by
  induction l with
  | nil => simp
  | cons e l ih =>
    rw [total_cons, map_cons, sum_cons]
    exact (abs_add_le _ _).trans (by omega)

theorem sum_abs_filter_le (l : List Entry) (p : Entry → Bool) :
    ((l.filter p).map fun e => |e.amount|).sum ≤ (l.map fun e => |e.amount|).sum := by
  refine (filter_sublist.map _).sum_le_sum fun x hx => ?_
  obtain ⟨e, -, rfl⟩ := mem_map.mp hx
  exact abs_nonneg e.amount

theorem sum_abs_upTo_le : ((upTo l k i).map fun e => |e.amount|).sum ≤ turnover l k :=
  sum_abs_filter_le ..

theorem abs_total_upTo_le : |total (upTo l k i)| ≤ turnover l k :=
  (abs_total_le _).trans sum_abs_upTo_le

end

/-! ### Exact checkpoints -/

/-- The checkpoint holds the sum of its account's rows of `l` dated at or before it. -/
def Exact (l : List Entry) (c : Checkpoint) : Prop :=
  c.balance = .int (total (upTo l c.key (ofUnix c.atUnix)))
deriving Decidable

@[simp] theorem Checkpoint.adjust_key (k : Nat) (d u : Int) (c : Checkpoint) :
    (c.adjust k d u).key = c.key := by
  unfold adjust; split <;> rfl

@[simp] theorem Checkpoint.adjust_atUnix (k : Nat) (d u : Int) (c : Checkpoint) :
    (c.adjust k d u).atUnix = c.atUnix := by
  unfold adjust; split <;> rfl

@[simp] theorem Checkpoint.adjust_stale (k : Nat) (d u : Int) (c : Checkpoint) :
    (c.adjust k d u).stale = c.stale := by
  unfold adjust; split <;> rfl

/-- Away from the checkpoint's own second, comparing seconds is comparing instants; in
that second it is so for a whole second only. -/
theorem le_ofUnix_iff_unix_le {i u : Int} (h : u = unix i → i = ofUnix u) :
    i ≤ ofUnix u ↔ unix i ≤ u := by
  unfold unix ofUnix at *
  omega

/-- **One leg and one checkpoint.**  A row of the checkpoint's account keeps it exact,
unless the row falls into the checkpoint's second after its first instant, or the
balance leaves the integers; a row of another account always does. -/
theorem Exact.leg {l : List Entry} {c : Checkpoint} (h : Exact l c) (e : Entry)
    (hsec : e.key = c.key → c.atUnix = unix e.instant → e.instant = ofUnix c.atUnix)
    (hrange : e.key = c.key → turnover l c.key + |e.amount| ≤ 9223372036854775807) :
    Exact (l ++ [e]) (c.adjust e.key e.amount (unix e.instant)) := by
  unfold Exact
  rw [adjust_key, adjust_atUnix, upTo_append, upTo_singleton, total_append]
  unfold adjust
  by_cases hk : e.key = c.key
  · -- the code compares seconds, `upTo` compares instants
    have hiff := le_ofUnix_iff_unix_le (hsec hk)
    by_cases hle : unix e.instant ≤ c.atUnix
    · have habs := abs_le.mp (abs_total_upTo_le (l := l) (k := c.key) (i := ofUnix c.atUnix))
      have hamt := abs_le.mp (le_refl |e.amount|)
      have hin : InRange (total (upTo l c.key (ofUnix c.atUnix)) + e.amount) := by
        unfold InRange; omega
      rw [if_pos ⟨hk.symm, hle⟩, if_pos ⟨hk, hiff.mpr hle⟩, h, Sql.add_int hin,
        Sql.column_int, total_cons, total_nil, add_zero]
    · rw [if_neg (fun hc => hle hc.2), if_neg (fun hc => hle (hiff.mp hc.2)), h, total_nil,
        add_zero]
  · rw [if_neg (fun hc => hk hc.1.symm), if_neg (fun hc => hk hc.1), h, total_nil, add_zero]

/-! ### What the operations keep -/

/-- The tables agree with the history `l`, the journal holds some of its rows, and every
checkpoint is exact with respect to it. -/
structure Sound (l : List Entry) (t : Tables) : Prop extends Ledger l t where
  retained : t.journal.Sublist l
  pks : UniqueKey pk t.checkpoints
  fresh : ∀ c ∈ t.checkpoints, c.stale = false
  exact : ∀ c ∈ t.checkpoints, Exact l c
  range : ∀ k, turnover l k ≤ 9223372036854775807

theorem Sound.empty : Sound [] {} where
  toLedger := Ledger.empty
  retained := Sublist.refl _
  pks := nodup_nil
  fresh := by simp
  exact := by simp
  range := by simp [turnover, rowsOf]

section

variable {l : List Entry} {t t' : Tables}

theorem Ledger.nodup (L : Ledger l t) : l.Nodup :=
  L.sorted.imp fun h heq => absurd (congrArg Entry.entryId heq) h.ne

/-- Rows of the history that the journal retains, selected, are the journal's selected. -/
theorem filter_eq_of_retained (hn : l.Nodup) (hsub : t.journal.Sublist l) (p : Entry → Bool)
    (h : ∀ e ∈ l, p e = true → e ∈ t.journal) : t.journal.filter p = l.filter p := by
  -- a sublist that is at least as long
  refine (hsub.filter p).eq_of_length_le ?_
  refine ((hn.filter p).subperm ?_).length_le
  intro e he
  rw [mem_filter] at he ⊢
  exact ⟨h e he.1 he.2, he.2⟩

theorem mem_upsertCheckpoint {c d : Checkpoint} :
    d ∈ (t.upsertCheckpoint c).checkpoints ↔ d = c ∨ d ∈ t.checkpoints ∧ d.pk ≠ c.pk := by
  unfold upsertCheckpoint
  split
  · next h =>
    obtain ⟨o, ho, hpk⟩ := any_eq_true.mp h
    exact mem_put ho (by simpa using hpk)
  · next h =>
    simp only [any_eq_true, beq_iff_eq, not_exists, not_and] at h
    rw [mem_append, mem_singleton]
    constructor
    · rintro (hd | rfl)
      · exact .inr ⟨hd, h d hd⟩
      · exact .inl rfl
    · rintro (rfl | ⟨hd, -⟩)
      · exact .inr rfl
      · exact .inl hd

theorem upsertCheckpoint_pks {c : Checkpoint} (h : UniqueKey pk t.checkpoints) :
    UniqueKey pk (t.upsertCheckpoint c).checkpoints := by
  unfold upsertCheckpoint
  split
  · exact h.put
  · next hnew =>
    simp only [any_eq_true, beq_iff_eq, not_exists, not_and] at hnew
    exact h.concat hnew

variable {at' : Int} {id : String}

/-- Everything `checkpoint` did. -/
theorem checkpoint_spec {r : Except BalError Unit} (h : t.checkpoint id at' = (r, t')) :
    match r with
    | .error _ => t' = t
    | .ok _ => ∃ a n, t.account? id = some a ∧
      t' = t.upsertCheckpoint
        ⟨a.key, unix at', .int (total (upTo t.journal a.key at')), n, false⟩ := by
  unfold checkpoint at h
  split at h
  · cases h
    rfl
  next a ha =>
  split at h
  · cases h
    rfl
  next balance hsum =>
  have hbal : balance = total (upTo t.journal a.key at') := by
    rw [Sql.sum_eq_some hsum, zero_add]
    rfl
  rw [hbal] at h
  cases h
  exact ⟨a, _, ha, rfl⟩

variable {I : Tables → Prop}

/-- What every successful checkpoint of the loop keeps, the loop keeps. -/
theorem checkpointAll_induct (ids : List String) (n : Nat)
    (hstep : ∀ t t' id, id ∈ ids → I t → t.checkpoint id at' = (.ok (), t') → I t')
    (h : I t) : I (checkpointAll at' ids n t).2 := by
  induction ids generalizing t n with
  | nil => exact h
  | cons id ids ih =>
    simp only [checkpointAll]
    rcases hc : t.checkpoint id at' with ⟨e | _, t'⟩
    · obtain rfl : _ = _ := checkpoint_spec hc
      exact h
    · exact ih (n + 1) (fun t t' id hid => hstep t t' id (mem_cons_of_mem _ hid))
        (hstep t t' id mem_cons_self h hc)

/-- The loop touches checkpoints only. -/
theorem checkpointAll_frame (t : Tables) (at' : Int) (ids : List String) (n : Nat) :
    (checkpointAll at' ids n t).2.journal = t.journal ∧
      (checkpointAll at' ids n t).2.accounts = t.accounts := by
  refine checkpointAll_induct (I := fun u => u.journal = t.journal ∧ u.accounts = t.accounts)
    ids n ?_ ⟨rfl, rfl⟩
  rintro u u' id - hu hck
  obtain ⟨a, n, -, rfl⟩ := checkpoint_spec hck
  exact hu

/-- What pruning one account keeps, the loop keeps. -/
theorem pruneAll_induct {before frontier : Int} (ks : List Nat) (n : Nat)
    (hstep : ∀ t k, k ∈ ks → I t → I (t.pruneAccount k before frontier).2)
    (h : I t) : I (pruneAll before frontier ks n t).2 := by
  induction ks generalizing t n with
  | nil => exact h
  | cons k ks ih =>
    exact ih _ (fun t k hk => hstep t k (mem_cons_of_mem _ hk)) (hstep t k mem_cons_self h)

/-- Pruning an account deletes journal rows and nothing else. -/
theorem pruneAccount_spec (t : Tables) (k : Nat) (before frontier : Int) :
    (t.pruneAccount k before frontier).2 = t ∨
      ∃ u, t.pruneCutoff k before frontier = some u ∧
        (t.pruneAccount k before frontier).2 = { t with
          journal := t.journal.filter (fun e => !(e.key == k && e.instant ≤ ofUnix u)) } := by
  unfold pruneAccount
  split
  · exact .inl rfl
  · next u hu => exact .inr ⟨u, hu, rfl⟩

theorem pruneAll_subset (t : Tables) (before frontier : Int) (ks : List Nat) (n : Nat) :
    (pruneAll before frontier ks n t).2.journal ⊆ t.journal := by
  refine pruneAll_induct (I := fun u => u.journal ⊆ t.journal) ks n ?_ (fun _ h => h)
  rintro u k - hu
  rcases pruneAccount_spec u k before frontier with h | ⟨c, -, h⟩
  · rwa [h]
  · rw [h]
    exact fun e he => hu (mem_of_mem_filter he)

theorem postable_of_mem_postableIds (wf : WellFormed t) {a : Account} (ha : a ∈ t.accounts)
    (hid : a.id ∈ t.postableIds) : a.postable = true := by
  obtain ⟨a', ha', hid'⟩ := mem_map.mp hid
  rw [mem_filter] at ha'
  rw [wf.ids.eq_of_key ha ha'.1 hid'.symm]
  exact ha'.2

/-- The conditions under which a transfer of `x` between `a` and `b` keeps every
checkpoint exact: neither account has a checkpoint in the transfer's second, unless the
transfer is dated at a whole second, and the turnover stays within the integers. -/
@[mk_iff] structure Clear (l : List Entry) (t : Tables) (x : Transfer) (k : Nat) : Prop where
  second : ∀ c ∈ t.checkpoints, c.key = k → c.atUnix = unix x.instant → x.instant = ofUnix c.atUnix
  range : turnover l k + |x.amount| ≤ 9223372036854775807

instance (l : List Entry) (t : Tables) (x : Transfer) (k : Nat) : Decidable (Clear l t x k) :=
  decidable_of_iff _ (clear_iff ..).symm

theorem turnover_append_of_ne {e : Entry} {k : Nat} (h : e.key ≠ k) :
    turnover (l ++ [e]) k = turnover l k := by
  simp [turnover, rowsOf, h]

/-- Only the two accounts of a transfer get more turnover, each by its amount. -/
theorem turnover_posted_le {x : Transfer} {seq : Nat} {ra rb : Balance} {bound : Int}
    (hne : ra.key ≠ rb.key) (h : ∀ k, turnover l k ≤ bound)
    (ha : turnover l ra.key + |x.amount| ≤ bound) (hb : turnover l rb.key + |x.amount| ≤ bound)
    (k : Nat) : turnover (l ++ x.entries seq (x.debited ra) (x.credited rb)) k ≤ bound := by
  have hturn : turnover (l ++ x.entries seq (x.debited ra) (x.credited rb)) k
      = turnover l k + ((if ra.key = k then |x.amount| else 0)
        + (if rb.key = k then |x.amount| else 0)) := by
    unfold turnover
    rw [rowsOf_append, rowsOf_entries, map_append, sum_append]
    by_cases ha : ra.key = k <;> by_cases hb : rb.key = k <;> simp [Transfer.entry, ha, hb]
  rw [hturn]
  by_cases hak : ra.key = k
  · subst hak
    rw [if_pos rfl, if_neg (Ne.symm hne), add_zero]
    exact ha
  by_cases hbk : rb.key = k
  · subst hbk
    rw [if_neg hak, if_pos rfl, zero_add]
    exact hb
  · rw [if_neg hak, if_neg hbk, add_zero, add_zero]
    exact h k

theorem Sound.posted {x : Transfer} {cs cd : Int} {a b : Account} {ra rb : Balance} (S : Sound l t)
    (p : Posted t x cs cd a ra b rb t') (hne : x.src ≠ x.dst) (ha : Clear l t x a.key)
    (hb : Clear l t x b.key) : Sound (l ++ x.entries t.seq (x.debited ra) (x.credited rb)) t' := by
  have hkey := p.key_ne S.toWellFormed hne
  have hck := p.checkpoints
  refine { toLedger := S.toLedger.posted p hne, retained := ?_, pks := ?_, fresh := ?_,
           exact := ?_, range := ?_ }
  · rw [p.journal]
    exact S.retained.append (Sublist.refl _)
  · unfold UniqueKey
    rw [hck, map_map, map_map]
    refine (map_congr_left fun c _ => ?_) ▸ S.pks
    simp [pk]
  · intro c hc
    rw [hck] at hc
    simp only [map_map, mem_map, Function.comp_apply] at hc
    obtain ⟨c₀, hc₀, rfl⟩ := hc
    simpa using S.fresh c₀ hc₀
  · intro c hc
    rw [hck] at hc
    simp only [map_map, mem_map, Function.comp_apply] at hc
    obtain ⟨c₀, hc₀, rfl⟩ := hc
    -- the debit leg, then the credit leg
    have h₁ := (S.exact c₀ hc₀).leg (x.entry (t.seq + 1) (x.debited ra) (-x.amount))
      (fun hk => ha.second c₀ hc₀ (hk.symm.trans p.debited.key))
      (fun hk => by
        rw [← hk]
        show turnover l ra.key + |-x.amount| ≤ _
        rw [abs_neg, p.debited.key]
        exact ha.range)
    have h₂ := h₁.leg (x.entry (t.seq + 2) (x.credited rb) x.amount)
      (fun hk => by
        rw [adjust_key] at hk
        rw [adjust_atUnix]
        exact hb.second c₀ hc₀ (hk.symm.trans p.credited.key))
      (fun hk => by
        rw [← hk]
        show turnover (l ++ [_]) rb.key + |x.amount| ≤ _
        rw [turnover_append_of_ne, p.credited.key]
        · exact hb.range
        · show ra.key ≠ rb.key
          rwa [p.debited.key, p.credited.key])
    rw [append_assoc] at h₂
    exact h₂
  · refine turnover_posted_le ?_ S.range ?_ ?_
    · rwa [p.debited.key, p.credited.key]
    · rw [p.debited.key]
      exact ha.range
    · rw [p.credited.key]
      exact hb.range

/-- Sums over the journal succeed while the turnover fits the integers. -/
theorem Sound.sum_retained (S : Sound l t) (k : Nat) (p : Entry → Bool) :
    Sql.sum 0 (((rowsOf t.journal k).filter p).map Entry.amount)
      = some (total ((rowsOf t.journal k).filter p)) := by
  -- every partial sum is bounded by the absolute amounts of the history
  have hle : (((rowsOf t.journal k).filter p).map fun e => |e.amount|).sum ≤ turnover l k := by
    refine Sublist.sum_le_sum (((filter_sublist).trans
      (S.retained.filter (·.key == k))).map _) fun y hy => ?_
    obtain ⟨z, -, rfl⟩ := mem_map.mp hy
    exact abs_nonneg _
  have hrange := S.range k
  rw [Sql.sum_of_bounded, zero_add]
  · rfl
  · rw [map_map]
    show |0| + (((rowsOf t.journal k).filter p).map fun e => |e.amount|).sum ≤ _
    rw [abs_zero]
    omega

theorem Sound.defined {d : AccountDef} {k : Nat} (S : Sound l t)
    (h : defineAccount d t = (.ok k, t')) : Sound l t' := by
  have L := S.toLedger.defined h
  obtain ⟨-, -, -, policy, -, rfl⟩ := defineAccount_spec h
  exact { S with toLedger := L }

/-- A new checkpoint is exact if the journal up to its instant has the sum of the
history up to its second. -/
theorem Sound.checkpoint (S : Sound l t) (h : t.checkpoint id at' = (.ok (), t'))
    (hsum : ∀ a ∈ t.accounts, a.id = id →
      total (upTo t.journal a.key at') = total (upTo l a.key (ofUnix (unix at')))) :
    Sound l t' := by
  obtain ⟨a, n, ha, rfl⟩ := checkpoint_spec h
  obtain ⟨hmem, hid⟩ := account?_spec ha
  refine { toLedger := ⟨⟨S.keys, S.ids, S.rows⟩, S.seq, S.sorted, S.known, S.books, S.sum⟩,
           retained := S.retained, pks := upsertCheckpoint_pks S.pks, fresh := ?_, exact := ?_,
           range := S.range }
  · intro c hc
    rcases mem_upsertCheckpoint.mp hc with rfl | ⟨hc, -⟩
    · rfl
    · exact S.fresh c hc
  · intro c hc
    -- the new row, or one that was there and keeps its place
    rcases mem_upsertCheckpoint.mp hc with rfl | ⟨hc, -⟩
    · unfold Exact
      rw [hsum a hmem hid]
    · exact S.exact c hc

theorem Sound.pruneAccount (S : Sound l t) (k : Nat) (before frontier : Int) :
    Sound l (t.pruneAccount k before frontier).2 := by
  rcases pruneAccount_spec t k before frontier with h | ⟨u, -, h⟩
  · rwa [h]
  · rw [h]
    exact { toLedger := ⟨⟨S.keys, S.ids, S.rows⟩, S.seq, S.sorted, S.known, S.books, S.sum⟩,
            retained := filter_sublist.trans S.retained, pks := S.pks, fresh := S.fresh,
            exact := S.exact, range := S.range }

end

/-! ### Runs -/

/-- In the years 0 to 9999, those that RFC 3339 can write. -/
def InCalendar (i : Int) : Prop := -62167219200000000000 ≤ i ∧ i < 253402300800000000000
deriving Decidable

/-- Instants are compared as texts, which have the order of the instants in the calendar. -/
def BookCmd.Dated : BookCmd → Prop
  | .define _ => True
  | .transfer _ _ _ x => InCalendar x.instant
  | .checkpoint _ at' | .sealPeriod at' | .pruneJournal at' => InCalendar at'

instance : DecidablePred BookCmd.Dated
  | .define _ => .isTrue trivial
  | .transfer .. | .checkpoint .. | .sealPeriod _ | .pruneJournal _ =>
    inferInstanceAs (Decidable (InCalendar _))

namespace Book

/-- A new book, under any sealer. -/
def init (sealer : Option Sealer) : Book := { sealer := sealer }

/-- No row of the account lies in the fraction of a second that ends at `at'`. -/
def NoFraction (l : List Entry) (key : Nat) (at' : Int) : Prop :=
  ∀ e ∈ l, e.key = key → ¬ (ofUnix (unix at') < e.instant ∧ e.instant ≤ at')
deriving Decidable

/-- Seconds and instants do not get confused in this step: a transfer that passes the
checks is `Clear` for both its accounts, and a checkpoint leaves no row between its
second and its instant. -/
def SecondSafe (b : Book) : BookCmd → Prop
  | .transfer tenant claims now x => Store.Allows ⟨tenant, claims, b.sealer⟩ now x b.tables →
      ∀ a ∈ b.tables.accounts, a.id = x.src ∨ a.id = x.dst → Clear b.ever b.tables x a.key
  | .checkpoint id at' => ∀ a ∈ b.tables.accounts, a.id = id → NoFraction b.ever a.key at'
  | .sealPeriod at' => ∀ s ∈ b.sealer, ∀ a ∈ b.tables.accounts, a.postable = true →
      NoFraction b.ever a.key (s.advanceTo at').frontier
  | .define _ => True
  | .pruneJournal _ => True

instance (b : Book) : DecidablePred b.SecondSafe
  | .transfer .. => inferInstanceAs (Decidable (_ → _))
  | .checkpoint .. | .sealPeriod _ => inferInstanceAs (Decidable (∀ _ ∈ _, _))
  | .define _ | .pruneJournal _ => .isTrue trivial

/-- No row of the account has been deleted. -/
def Unpruned (b : Book) (key : Nat) : Prop := ∀ e ∈ b.ever, e.key = key → e ∈ b.tables.journal
deriving Decidable

/-- The step checkpoints only accounts whose journal is complete. -/
def SealsUnpruned (b : Book) : BookCmd → Prop
  | .checkpoint id _ => ∀ a ∈ b.tables.accounts, a.id = id → b.Unpruned a.key
  | .sealPeriod _ => ∀ a ∈ b.tables.accounts, a.postable = true → b.Unpruned a.key
  | _ => True

variable {b : Book} {t : Tables}

theorem commit_ever (h : ∀ e ∈ t.journal, e.entryId ≤ b.tables.seq) :
    (b.commit t).ever = b.ever := by
  unfold commit
  rw [filter_eq_nil_iff.mpr, append_nil]
  intro e he
  simpa using h e he

section

variable (S : Sound b.ever b.tables)

include S

theorem commit_posted {x : Transfer} {cs cd : Int} {a c : Account} {ra rc : Balance}
    (p : Posted b.tables x cs cd a ra c rc t) :
    (b.commit t).ever = b.ever ++ x.entries b.tables.seq (x.debited ra) (x.credited rc) := by
  have hold : b.tables.journal.filter (fun e => b.tables.seq < e.entryId) = [] :=
    filter_eq_nil_iff.mpr fun e he => by
      simpa using S.seq e (S.retained.subset he)
  unfold commit
  rw [p.journal, filter_append, hold, nil_append]
  simp [Transfer.entries, Transfer.entry]

/-- The journal up to an instant is the history up to its second. -/
theorem upTo_eq {k : Nat} {at' : Int} (hfrac : NoFraction b.ever k at') (hun : b.Unpruned k) :
    upTo b.tables.journal k at' = upTo b.ever k (ofUnix (unix at')) := by
  -- nothing of the account is pruned, and no row lies in the fraction cut off
  have hrows : rowsOf b.tables.journal k = rowsOf b.ever k :=
    filter_eq_of_retained S.toLedger.nodup S.retained _ fun e he hk => hun e he (by simpa using hk)
  unfold upTo
  rw [hrows]
  refine filter_congr fun e he => ?_
  obtain ⟨hmem, hk⟩ := mem_rowsOf.mp he
  have hno := hfrac e hmem hk
  have hle := ofUnix_unix_le at'
  rw [decide_eq_decide]
  omega

/-- What a step can do to the history and the tables. -/
inductive StepOf (b : Book) : BookCmd → List Entry → Tables → Prop
  /-- Refused: nothing changes. -/
  | refused {c : BookCmd} : StepOf b c b.ever b.tables
  | defined {d : AccountDef} {k : Nat} {t : Tables} (h : defineAccount d b.tables = (.ok k, t)) :
    StepOf b (.define d) b.ever t
  | posted {tenant : String} {claims : Option MemCache} {now : Int} {x : Transfer}
    {cs cd : Int} {a d : Account} {ra rd : Balance} {t : Tables}
    (hok : Store.Allows ⟨tenant, claims, b.sealer⟩ now x b.tables)
    (p : Posted b.tables x cs cd a ra d rd t) :
    StepOf b (.transfer tenant claims now x)
      (b.ever ++ x.entries b.tables.seq (x.debited ra) (x.credited rd)) t
  | checkpointed {id : String} {at' : Int} {t : Tables}
    (h : b.tables.checkpoint id at' = (.ok (), t)) : StepOf b (.checkpoint id at') b.ever t
  /-- The loop of a period close, over the postable accounts. -/
  | closed {at' : Int} {s : Sealer} (hs : b.sealer = some s) :
    StepOf b (.sealPeriod at') b.ever
      (checkpointAll (s.advanceTo at').frontier b.tables.postableIds 0 b.tables).2
  /-- The loop of a prune, over the postable accounts. -/
  | pruned {before : Int} {s : Sealer} (hs : b.sealer = some s) :
    StepOf b (.pruneJournal before) b.ever
      (pruneAll before s.frontier
        ((b.tables.accounts.filter (·.postable)).map Account.key) 0 b.tables).2

theorem step_cases (c : BookCmd) : StepOf b c (b.step c).ever (b.step c).tables := by
  have hseq : ∀ e ∈ b.tables.journal, e.entryId ≤ b.tables.seq :=
    fun e he => S.seq e (S.retained.subset he)
  cases c with
  | define d =>
    show StepOf b _ (b.commit (defineAccount d b.tables).2).ever (defineAccount d b.tables).2
    rcases h : defineAccount d b.tables with ⟨_ | k, t'⟩
    · obtain rfl : _ = _ := defineAccount_spec h
      rw [commit_ever hseq]
      exact .refused
    · have hj : t'.journal = b.tables.journal := by
        obtain ⟨-, -, -, policy, -, rfl⟩ := defineAccount_spec h
        rfl
      rw [commit_ever (by rwa [hj])]
      exact .defined h
  | transfer tenant claims now x =>
    show StepOf b _ (b.commit (b.transfer tenant claims now x).2).ever
      (b.transfer tenant claims now x).2
    rcases h : b.transfer tenant claims now x with ⟨_ | ks, t'⟩
    · obtain rfl : _ = _ := transfer_spec h
      rw [commit_ever hseq]
      exact .refused
    · obtain ⟨-, -, htx⟩ := transfer_spec h
      obtain ⟨-, a, ra, d, rd, p, -⟩ := transferInTx_ok htx
      rw [commit_posted S p]
      have hok := transfer_isOk_iff S.toWellFormed ⟨tenant, claims, b.sealer⟩ now x
      exact .posted (hok.mp (by rw [show Store.transfer _ now x _ = _ from h]; rfl)) p
  | checkpoint id at' =>
    show StepOf b _ (b.commit (b.tables.checkpoint id at').2).ever (b.tables.checkpoint id at').2
    rcases h : b.tables.checkpoint id at' with ⟨_ | _, t'⟩
    · obtain rfl : _ = _ := checkpoint_spec h
      rw [commit_ever hseq]
      exact .refused
    · have hj : t'.journal = b.tables.journal := by
        obtain ⟨a, n, -, rfl⟩ := checkpoint_spec h
        rfl
      rw [commit_ever (by rwa [hj])]
      exact .checkpointed h
  | sealPeriod at' =>
    show StepOf b _ (b.sealPeriod at').2.ever (b.sealPeriod at').2.tables
    unfold sealPeriod
    split
    · exact .refused
    next s hs =>
    rw [commit_ever (by rwa [(checkpointAll_frame ..).1])]
    exact .closed hs
  | pruneJournal before =>
    show StepOf b _ (b.pruneJournal before).2.ever (b.pruneJournal before).2.tables
    unfold pruneJournal
    split
    · exact .refused
    next s hs =>
    rw [commit_ever fun e he => hseq e (pruneAll_subset _ _ _ _ _ he)]
    exact .pruned hs

/-- **The step lemma**: a book stays sound under every operation that keeps seconds and
instants apart and does not checkpoint a pruned account. -/
theorem sound_step (c : BookCmd) (hsec : b.SecondSafe c)
    (hun : b.SealsUnpruned c) : Sound (b.step c).ever (b.step c).tables := by
  have h := step_cases S c
  generalize (b.step c).ever = l', (b.step c).tables = t' at h
  cases h with
  | refused => exact S
  | defined h => exact S.defined h
  | posted hok p =>
    -- the two accounts of the transfer are the only ones touched
    have hclear := hsec hok
    exact S.posted p hok.distinct
      (hclear _ p.mem_src (.inl (account?_spec p.debited.account).2))
      (hclear _ p.mem_dst (.inr (account?_spec p.credited.account).2))
  | checkpointed h =>
    exact S.checkpoint h fun a ha hid => by rw [upTo_eq S (hsec a ha hid) (hun a ha hid)]
  | @closed at' s hs =>
    -- the loop changes checkpoints only, so the conditions at its start hold throughout
    refine (checkpointAll_induct (I := fun t => Sound b.ever t ∧
      t.journal = b.tables.journal ∧ t.accounts = b.tables.accounts) _ 0 ?_ ⟨S, rfl, rfl⟩).1
    rintro t t' id hid ⟨St, hj, hacc⟩ hck
    have hsum : ∀ a ∈ t.accounts, a.id = id →
        total (upTo t.journal a.key (s.advanceTo at').frontier)
          = total (upTo b.ever a.key (ofUnix (unix (s.advanceTo at').frontier))) := by
      intro a ha haid
      rw [hacc] at ha
      have hpost := postable_of_mem_postableIds S.toWellFormed ha (haid ▸ hid)
      rw [hj, upTo_eq S (hsec s hs a ha hpost) (hun a ha hpost)]
    have St' := St.checkpoint hck hsum
    obtain ⟨a, n, -, rfl⟩ := checkpoint_spec hck
    exact ⟨St', hj, hacc⟩
  | pruned hs => exact pruneAll_induct _ 0 (fun t k _ St => St.pruneAccount ..) S

end

/-- A complete book has no pruned account to checkpoint. -/
theorem sealsUnpruned_of_complete (hcomplete : b.ever = b.tables.journal) (c : BookCmd) :
    b.SealsUnpruned c := by
  have hall : ∀ k, b.Unpruned k := fun k e he _ => hcomplete ▸ he
  cases c with
  | checkpoint | sealPeriod => exact fun a _ _ => hall a.key
  | define | transfer | pruneJournal => trivial

/-- While nothing is pruned the journal is the whole history. -/
theorem complete_step (S : Sound b.ever b.tables) (hcomplete : b.ever = b.tables.journal)
    (c : BookCmd) (hc : c.keepsRows = true) : (b.step c).ever = (b.step c).tables.journal := by
  have h := step_cases S c
  generalize (b.step c).ever = l', (b.step c).tables = t' at h
  cases h with
  | refused => exact hcomplete
  | defined h =>
    obtain ⟨-, -, -, policy, -, rfl⟩ := defineAccount_spec h
    exact hcomplete
  | posted hok p => rw [p.journal, hcomplete]
  | checkpointed h =>
    obtain ⟨a, n, -, rfl⟩ := checkpoint_spec h
    exact hcomplete
  | closed hs => rw [(checkpointAll_frame ..).1, hcomplete]
  | pruned hs => cases hc

/-- A book without pruning stays sound and complete. -/
theorem sound_run (sealer : Option Sealer) (cmds : List BookCmd)
    (hkeep : ∀ c ∈ cmds, c.keepsRows = true) (h : Along Book.step SecondSafe (init sealer) cmds) :
    Sound (run Book.step (init sealer) cmds).ever (run Book.step (init sealer) cmds).tables ∧
      (run Book.step (init sealer) cmds).ever
        = (run Book.step (init sealer) cmds).tables.journal := by
  have hboth : Along Book.step (fun b c => b.SecondSafe c ∧ c.keepsRows = true)
      (init sealer) cmds := h.and_forall hkeep
  refine invariant_of_along (I := fun b => Sound b.ever b.tables ∧ b.ever = b.tables.journal)
    ?_ ⟨Sound.empty, rfl⟩ hboth
  rintro b c ⟨S, hcomplete⟩ ⟨hsec, hc⟩
  exact ⟨sound_step S c hsec (sealsUnpruned_of_complete hcomplete c),
    complete_step S hcomplete c hc⟩

end Book

/-- **Checkpoints stay exact** in every run without pruning whose steps are dated in the calendar
and `SecondSafe`: each holds the sum of its account's journal dated at or before it. -/
theorem checkpoints_exact (sealer : Option Sealer) (cmds : List BookCmd)
    (hkeep : ∀ c ∈ cmds, c.keepsRows = true ∧ c.Dated)
    (h : Along Book.step Book.SecondSafe (Book.init sealer) cmds) :
    ∀ c ∈ (run Book.step (Book.init sealer) cmds).tables.checkpoints,
      Exact (run Book.step (Book.init sealer) cmds).tables.journal c := by
  obtain ⟨S, hcomplete⟩ := Book.sound_run sealer cmds (fun c hc => (hkeep c hc).1) h
  rw [← hcomplete]
  exact S.exact

/-- Two accounts, `a` with an overdraft, both with entries in any order. -/
def twoAccounts (policy : String) : List BookCmd :=
  [.define ⟨"a", "EUR", 2, -1000, none, true, policy⟩,
   .define ⟨"b", "EUR", 2, 0, none, true, policy⟩]

/-- A transfer from `a` to `b`. -/
def pay (amount at' : Int) : BookCmd := .transfer "1" none 0 ⟨"t", "a", "b", amount, "", at'⟩

/-- A checkpoint, a close, and transfers before and after them. -/
def closeRun : List BookCmd :=
  twoAccounts "backdated" ++
    [pay 5 10000000000, .checkpoint "a" 10000000000, .sealPeriod 12000000000,
     pay 7 9500000000, pay 2 13500000000]

theorem closeRun_exact :
    let t := (run Book.step (Book.init (some (newSealer monthWindows))) closeRun).tables
    (t.checkpoints.map fun c => (c.pk, c.balance))
        = [((1, 10), .int (-12)), ((1, 12), .int (-12)), ((2, 12), .int 12)] ∧
      ∀ c ∈ t.checkpoints, Exact t.journal c :=
  ⟨by decide, checkpoints_exact _ closeRun (by decide) (by decide)⟩

/-- A checkpoint at second 10, then a transfer half a second later. -/
def halfSecondRun : List BookCmd :=
  twoAccounts "" ++ [.checkpoint "a" 10000000000, pay 5 10500000000]

/-- The checkpoint takes the later transfer in. -/
theorem halfSecondRun_not_exact :
    let t := (run Book.step (Book.init none) halfSecondRun).tables
    t.checkpoints = [⟨1, 10, .int (-5), 0, false⟩] ∧ total (upTo t.journal 1 (ofUnix 10)) = 0 := by
  decide

end Xolu.Bal
