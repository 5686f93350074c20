/-
# The rollup plane and balances as of an instant (pkg/bal/rollup.go, rollup_pebble.go)

After a transfer has committed, its two signed amounts are folded into the buckets of its
accounts.  `balanceAsOf` reads the latest checkpoint at or before the instant and adds the
buckets from there on; `balanceAsOfExact` sums the journal.

The buckets know hours, not instants, and a bucket key knows seconds.  So the fast read
leaves some rows out (`Skipped`) and has some it should not have, or has them twice
(`Repeated`).  `balanceAsOf_eq_exact_iff`: the two reads agree exactly when these rows
cancel out.
-/
import Xolu.Bal.Prune
import Xolu.Chronicle.Build
import Mathlib.Data.BitVec

namespace Xolu.Bal

open Function List Num64 Instant Chronicle Dxp Keyed Runs Tiling Checkpoint

/-! ### The plane -/

/-- `balGrains`: hours, days, and from the days weeks on one branch and months, quarters
and years on the other. -/
def balGrains : Hierarchy where
  grains := [fixedGrain "hour" 3600000000000, fixedGrain "day" 86400000000000,
    fixedGrain "week" 604800000000000, monthGrain "month", monthsGrain "quarter" 3,
    monthsGrain "year" 12]
  parent := [none, some 0, some 1, some 1, some 3, some 4]

/-- The start seconds in a bucket key: `uint64(startUnix)`, big-endian. -/
def startSeconds (t : Int) : Int := unix t % 18446744073709551616

/-- The buckets of each account, of Go's `int64`. -/
abbrev Rollup := Nat → Buckets Int (BitVec 64)

/-- `Append` to the buckets of one account. -/
def Rollup.appendTo (r : Rollup) (key : Nat) (v at' : Int) : Rollup :=
  Function.update r key (append balGrains startSeconds (r key) (BitVec.ofInt 64 v) at')

def Rollup.emitDeltas (r : Rollup) (src dst : Nat) (amount at' : Int) : Rollup :=
  (r.appendTo src (-amount) at').appendTo dst amount at'

/-- A book with its rollup plane. -/
structure Plane where
  book : Book
  rollup : Rollup

namespace Plane

/-- A step of the book, and the deltas of a transfer that committed. -/
def step (p : Plane) (c : BookCmd) : Plane where
  book := p.book.step c
  rollup :=
    match c with
    | .transfer tenant claims now x =>
      match (p.book.transfer tenant claims now x).1 with
      | .ok (src, dst) => p.rollup.emitDeltas src dst x.amount x.instant
      | .error _ => p.rollup
    | _ => p.rollup

def init (sealer : Option Sealer) : Plane := ⟨Book.init sealer, fun _ => []⟩

end Plane

/-- A `NullInt64` scanned from the column, its error dropped. -/
def scanNull : Sql → Int
  | .int v => v
  | .real _ => 0

/-- The checkpoint `BalanceAsOf` starts from. -/
def Tables.checkpointFor (t : Tables) (key : Nat) (at' : Int) : Option Checkpoint :=
  t.latestCheckpoint key (· ≤ unix at')

def Plane.balanceAsOf (p : Plane) (id : String) (at' : Int) : Except BalError Int :=
  match p.book.tables.account? id with
  | none => .error (.unknownAccount id)
  | some a =>
    -- without a checkpoint the fold starts at the epoch
    let (base, lo) := match p.book.tables.checkpointFor a.key at' with
      | some c => (scanNull c.balance, ofUnix c.atUnix)
      | none => (0, 0)
    .ok (BitVec.ofInt 64 base + foldRange balGrains startSeconds (p.rollup a.key) lo at').toInt

def Tables.balanceAsOfExact (t : Tables) (id : String) (at' : Int) : Except BalError Int :=
  match t.account? id with
  | none => .error (.unknownAccount id)
  | some a =>
    -- strictly before the query
    match Sql.sum 0 (((rowsOf t.journal a.key).filter (·.instant < at')).map Entry.amount) with
    | some v => .ok v
    | none => .error .integerOverflow

/-! ### The hierarchy is valid and its keys keep the order -/

/-- The hierarchy is the one `NewTreeHierarchy` builds. -/
theorem balGrains_valid : balGrains.Valid :=
  (Hierarchy.Built.tree _ newTreeHierarchy_balHierarchy).valid balTree_standard balTree_nested

/-- The start of the finest bucket. -/
def hourOf (i : Int) : Int := truncateTo 3600000000000 i

theorem root_truncate : (balGrains.grain balGrains.root).truncate = hourOf := rfl

/-- Hours start at whole seconds. -/
theorem hourOf_spec (i : Int) :
    hourOf i ≤ i ∧ i < hourOf i + 3600000000000 ∧ hourOf i % 3600000000000 = 0 := by
  unfold hourOf truncateTo zeroTime
  omega

variable {i : Int}

theorem startSeconds_of_nonneg (h : 0 ≤ i) (hi : unix i ≤ 9223372036854775807) :
    startSeconds i = unix i := by
  unfold startSeconds unix at *
  omega

/-- Seconds before the epoch wrap around. -/
theorem startSeconds_of_neg (h : i < 0) (hi : -9223372036854775808 ≤ unix i) :
    startSeconds i = unix i + 18446744073709551616 := by
  unfold startSeconds unix at *
  omega

/-- From the epoch on, bucket keys are in the order of the instants; those of earlier
buckets come after all of them. -/
theorem startSeconds_faithful {lo hi : Int} (hlo : 0 ≤ lo) (hhi : unix hi ≤ 9223372036854775807) :
    Faithful startSeconds (balGrains.grain balGrains.root) (fun b => InRange (unix b)) lo hi := by
  have hkey : ∀ {i : Int}, lo ≤ i → i ≤ hi → startSeconds i = unix i := fun hli hih =>
    startSeconds_of_nonneg (hlo.trans hli) ((unix_mono hih).trans hhi)
  refine { mono := ?_, between := ?_ }
  · intro s t hs hst ht
    rw [hkey hs (hst.trans ht), hkey (hs.trans hst) ht]
    exact unix_mono hst
  · intro s t b hs ht hb hdom hls hst hth
    -- hours start at whole seconds
    have whole : ∀ {i : Int}, hourOf i = i → i % 3600000000000 = 0 := by
      intro i hi
      rw [← hi]
      exact (hourOf_spec i).2.2
    have hs' := whole hs
    have ht' := whole ht
    have htop := (unix_mono hth).trans hhi
    rw [hkey hls (hst.trans hth), hkey (hls.trans hst) hth]
    by_cases hneg : b < 0
    · -- the key of an early bucket is above every key of the window
      rw [startSeconds_of_neg hneg hdom.1]
      have := hdom.1
      omega
    · rw [startSeconds_of_nonneg (by omega) hdom.2]
      unfold unix at *
      omega

/-- Every bucket that holds an instant of the calendar starts at an `int64` second. -/
theorem inRange_truncate (hi : InCalendar i) {level : Nat} (hl : level < balGrains.levels) :
    InRange (unix ((balGrains.grain level).truncate i)) := by
  have htile := balGrains_valid.tiles level hl
  have hle := htile.trunc_le i
  have hmono := htile.mono hi.1
  -- the bucket of the first instant bounds all others from below
  have hfirst : ∀ l < balGrains.levels,
      -70000000000000000000 ≤ (balGrains.grain l).truncate (-62167219200000000000) := by decide
  have := hfirst level hl
  have := hi.2
  unfold InRange unix
  omega

/-! ### The buckets follow the journal -/

variable (rows : List Entry)

/-- What the engine appended for the rows of an account. -/
def deltas : List (BitVec 64 × Int) := rows.map fun e => (BitVec.ofInt 64 e.amount, e.instant)

/-- Amounts and instants of rows. -/
def movesOf : List (Int × Int) := rows.map fun e => (e.amount, e.instant)

theorem movesOf_append (l l' : List Entry) : movesOf (l ++ l') = movesOf l ++ movesOf l' :=
  map_append

/-- A move as the engine appends it. -/
def word (m : Int × Int) : BitVec 64 × Int := (BitVec.ofInt 64 m.1, m.2)

theorem deltas_eq : deltas rows = (movesOf rows).map word := by
  unfold deltas movesOf
  rw [map_map]
  rfl

/-- The moves of one leg on an account. -/
def legMoves (src dst : Nat) (amount at' : Int) (k : Nat) : List (Int × Int) :=
  (if src = k then [(-amount, at')] else []) ++ if dst = k then [(amount, at')] else []

/-- The moves of the rows that a transfer adds. -/
theorem movesOf_entries (x : Transfer) (seq : Nat) (ra rb : Balance) (k : Nat) :
    movesOf (rowsOf (x.entries seq (x.debited ra) (x.credited rb)) k)
      = legMoves ra.key rb.key x.amount x.instant k := by
  rw [rowsOf_entries]
  unfold movesOf legMoves
  by_cases ha : ra.key = k <;> by_cases hb : rb.key = k <;> simp [ha, hb, Transfer.entry]

/-- `EmitDeltas` appends the moves of its leg. -/
theorem emitDeltas_appendAll {r : Rollup} {done : Nat → List (Int × Int)}
    (h : ∀ k, r k = appendAll balGrains startSeconds ((done k).map word)) {src dst : Nat}
    (hne : src ≠ dst) (amount at' : Int) (k : Nat) : (r.emitDeltas src dst amount at') k
      = appendAll balGrains startSeconds ((done k ++ legMoves src dst amount at' k).map word) := by
  unfold Rollup.emitDeltas Rollup.appendTo legMoves
  rw [map_append]
  -- the last append is the credit
  by_cases hd : dst = k
  · have hs : src ≠ k := fun hs => hne (hs.trans hd.symm)
    subst hd
    rw [update_self, update_of_ne (Ne.symm hs), h dst, if_neg hs,
      nil_append, if_pos rfl, map_singleton, appendAll_concat]
    rfl
  rw [update_of_ne (Ne.symm hd), if_neg hd, append_nil]
  by_cases hs : src = k
  · subst hs
    rw [update_self, h src, if_pos rfl, map_singleton, appendAll_concat]
    rfl
  · rw [update_of_ne (Ne.symm hs), if_neg hs, map_nil, append_nil, h k]

/-- The buckets of every account are the cascade of its rows. -/
def Rolled (l : List Entry) (r : Rollup) : Prop :=
  ∀ k, r k = appendAll balGrains startSeconds (deltas (rowsOf l k))

/-- Deltas of a transfer are deltas of the rows it journaled. -/
theorem Rolled.emitDeltas {l : List Entry} {r : Rollup} (h : Rolled l r) (x : Transfer)
    (seq : Nat) {ra rb : Balance} (hne : ra.key ≠ rb.key) :
    Rolled (l ++ x.entries seq (x.debited ra) (x.credited rb))
      (r.emitDeltas ra.key rb.key x.amount x.instant) := by
  intro k
  have hmoves : ∀ k, r k = appendAll balGrains startSeconds ((movesOf (rowsOf l k)).map word) := by
    intro k
    rw [h k, deltas_eq]
  rw [emitDeltas_appendAll hmoves hne, deltas_eq, rowsOf_append, movesOf_append, movesOf_entries]

/-- The transfer, if the command is one, is dated in the calendar. -/
def BookCmd.InCalendar : BookCmd → Prop
  | .transfer _ _ _ x => Bal.InCalendar x.instant
  | _ => True

instance : DecidablePred BookCmd.InCalendar
  | .transfer .. => inferInstanceAs (Decidable (Bal.InCalendar _))
  | .define _ | .checkpoint .. | .sealPeriod _ | .pruneJournal _ => .isTrue trivial

/-- Sound and complete books, dated in the calendar, and their buckets. -/
structure Plane.Inv (p : Plane) : Prop where
  sound : Sound p.book.ever p.book.tables
  complete : p.book.ever = p.book.tables.journal
  rolled : Rolled p.book.ever p.rollup
  dated : ∀ e ∈ p.book.ever, InCalendar e.instant

/-- Only a transfer that commits adds to the history. -/
theorem Book.ever_step {b : Book} (S : Sound b.ever b.tables) (c : BookCmd)
    (h : ∀ tenant claims now x, c ≠ .transfer tenant claims now x) : (b.step c).ever = b.ever := by
  have hs := step_cases S c
  generalize (b.step c).ever = l', (b.step c).tables = t' at hs
  cases hs with
  | posted => exact absurd rfl (h _ _ _ _)
  | refused | defined | checkpointed | closed | pruned => rfl

theorem Plane.inv_step {p : Plane} (h : p.Inv) (c : BookCmd) (hsec : p.book.SecondSafe c)
    (hkeep : c.keepsRows = true) (hcal : c.InCalendar) : (p.step c).Inv := by
  have hsound := Book.sound_step h.sound c hsec (Book.sealsUnpruned_of_complete h.complete c)
  have hcomplete := Book.complete_step h.sound h.complete c hkeep
  -- a step that journals nothing emits nothing
  have hquiet : (p.book.step c).ever = p.book.ever → (p.step c).rollup = p.rollup →
      (p.step c).Inv := by
    intro hever hroll
    refine ⟨hsound, hcomplete, ?_, ?_⟩
    · show Rolled (p.book.step c).ever _
      rw [hever, hroll]
      exact h.rolled
    · show ∀ e ∈ (p.book.step c).ever, _
      rw [hever]
      exact h.dated
  cases c with
  | transfer tenant claims now x =>
    have hever : (p.book.step (.transfer tenant claims now x)).ever
        = (p.book.commit (p.book.transfer tenant claims now x).2).ever := rfl
    rcases ht : p.book.transfer tenant claims now x with ⟨_ | ks, t'⟩
    · refine hquiet ?_ (by simp only [step, ht])
      obtain rfl : _ = _ := transfer_spec ht
      rw [hever, ht]
      exact Book.commit_ever fun e he => h.sound.seq e (h.sound.retained.subset he)
    · obtain ⟨hpos, hne, htx⟩ := transfer_spec ht
      obtain ⟨-, a, ra, d, rd, hp, rfl⟩ := transferInTx_ok htx
      have hroll : (p.step (.transfer tenant claims now x)).rollup
          = p.rollup.emitDeltas a.key d.key x.amount x.instant := by
        simp only [step, ht]
      rw [ht, Book.commit_posted h.sound hp] at hever
      have hkeys := hp.key_ne h.sound.toWellFormed hne
      refine ⟨hsound, hcomplete, ?_, ?_⟩
      · show Rolled (p.book.step _).ever _
        rw [hever, hroll, ← hp.debited.key, ← hp.credited.key]
        refine h.rolled.emitDeltas x _ ?_
        rwa [hp.debited.key, hp.credited.key]
      · show ∀ e ∈ (p.book.step _).ever, _
        rw [hever]
        intro e he
        rcases mem_append.mp he with he | he
        · exact h.dated e he
        · rw [Transfer.instant_of_mem_entries he]
          exact hcal
  | define d => exact hquiet (Book.ever_step h.sound _ (by simp)) rfl
  | checkpoint id at' => exact hquiet (Book.ever_step h.sound _ (by simp)) rfl
  | sealPeriod at' => exact hquiet (Book.ever_step h.sound _ (by simp)) rfl
  | pruneJournal before => exact hquiet (Book.ever_step h.sound _ (by simp)) rfl

/-! ### What the fast read counts -/

/-- The rows in the checkpoint. -/
def Kept (ck : Option Int) (i : Int) : Prop :=
  match ck with
  | none => False
  | some u => i ≤ ofUnix u

/-- Where the fold starts. -/
def foldStart (ck : Option Int) : Int :=
  match ck with
  | none => 0
  | some u => ofUnix u

/-- The rows in the folded buckets: their hour starts between the two seconds. -/
def Folded (lo at' i : Int) : Prop := ofUnix (unix lo) ≤ hourOf i ∧ hourOf i < ofUnix (unix at')
deriving Decidable

/-- Rows before `at'` that the fast read leaves out: those before the epoch if there is no
checkpoint, those after the checkpoint in an hour that it cuts, and those in the hour of
`at'` if `at'` lies in its first second. -/
def Skipped (ck : Option Int) (at' i : Int) : Prop :=
  i < at' ∧
  match ck with
  | none => i < 0 ∨ hourOf i = ofUnix (unix at')
  | some u => ofUnix u < i ∧ (hourOf i < ofUnix u ∨ hourOf i = ofUnix (unix at'))

/-- Rows that the fast read counts once too often: those at or after `at'` in its hour, if
`at'` lies past the hour's first second, and those at the instant of the checkpoint, if
that is `at'` itself or the start of a folded hour. -/
def Repeated (ck : Option Int) (at' i : Int) : Prop :=
  match ck with
  | none => at' ≤ i ∧ hourOf i < ofUnix (unix at')
  | some u => (at' ≤ i ∧ ofUnix u ≤ hourOf i ∧ hourOf i < ofUnix (unix at')) ∨
      (i = ofUnix u ∧ (i = at' ∨ (hourOf i = i ∧ i < ofUnix (unix at'))))

instance (ck : Option Int) : DecidablePred (Kept ck) := fun i =>
  match ck with
  | none => .isFalse id
  | some u => inferInstanceAs (Decidable (i ≤ ofUnix u))

instance (ck : Option Int) (at' : Int) : DecidablePred (Skipped ck at') := fun _ =>
  match ck with
  | none => inferInstanceAs (Decidable (_ ∧ (_ ∨ _)))
  | some _ => inferInstanceAs (Decidable (_ ∧ (_ ∧ (_ ∨ _))))

instance (ck : Option Int) (at' : Int) : DecidablePred (Repeated ck at') := fun _ =>
  match ck with
  | none => inferInstanceAs (Decidable (_ ∧ _))
  | some _ => inferInstanceAs (Decidable ((_ ∧ _ ∧ _) ∨ (_ ∧ (_ ∨ (_ ∧ _)))))

variable {at' : Int}

/-- A row is read as often as it should be, apart from those two kinds. -/
theorem row_count {ck : Option Int} (hat : 0 ≤ at') (hck : ∀ u ∈ ck, u ≤ unix at') (i : Int) :
    (if Kept ck i then 1 else 0) + (if Folded (foldStart ck) at' i then 1 else 0)
        + (if Skipped ck at' i then 1 else 0)
      = (if i < at' then 1 else 0) + (if Repeated ck at' i then (1 : Int) else 0) := by
  obtain ⟨hle, hlt, hwhole⟩ := hourOf_spec i
  have hsec : ofUnix (unix at') ≤ at' := ofUnix_unix_le at'
  have hat' : hourOf i ≤ at' → hourOf i ≤ ofUnix (unix at') := by
    unfold unix ofUnix
    omega
  have hpos : 0 ≤ i → 0 ≤ hourOf i := by omega
  -- what is left is linear in the instants and the start of the hour
  cases ck with
  | none =>
    simp only [Kept, Folded, foldStart, Skipped, Repeated, ↓reduceIte, zero_add]
    have hzero : ofUnix (unix 0) = 0 := rfl
    split_ifs <;> omega
  | some u =>
    have hub : ofUnix u ≤ ofUnix (unix at') := by
      have := hck u rfl
      unfold ofUnix
      omega
    simp only [Kept, Folded, foldStart, Skipped, Repeated, unix_ofUnix]
    split_ifs <;> omega

theorem total_filter (P : Int → Prop) [DecidablePred P] : total (rows.filter fun e => P e.instant)
      = (rows.map fun e => (if P e.instant then 1 else 0) * e.amount).sum := by
  simp only [ite_mul, one_mul, zero_mul]
  rw [sum_map_ite, sum_map_zero, add_zero, total]

/-- The fast read, over the integers, is the exact one without the skipped rows and with
the repeated ones. -/
theorem total_fast {ck : Option Int} (hat : 0 ≤ at') (hck : ∀ u ∈ ck, u ≤ unix at')
    (rows : List Entry) : total (rows.filter fun e => Kept ck e.instant)
        + total (rows.filter fun e => Folded (foldStart ck) at' e.instant)
        + total (rows.filter fun e => Skipped ck at' e.instant)
      = total (rows.filter fun e => e.instant < at')
        + total (rows.filter fun e => Repeated ck at' e.instant) := by
  rw [total_filter, total_filter, total_filter, total_filter rows (· < at'), total_filter,
    ← sum_map_add, ← sum_map_add, ← sum_map_add]
  refine congrArg List.sum (map_congr_left fun e _ => ?_)
  rw [← add_mul, ← add_mul, ← add_mul, row_count hat hck]

theorem sum_map_ofInt (xs : List Int) :
    (xs.map (BitVec.ofInt 64)).sum = BitVec.ofInt 64 xs.sum := by
  induction xs with
  | nil => rfl
  | cons x xs ih => rw [map_cons, sum_cons, sum_cons, ih, BitVec.ofInt_add]

/-- The cascade in 64-bit words is the sum over the integers, taken to a word. -/
theorem windowSum_deltas (key : Int → Int) (lo hi : Int) : windowSum (deltas rows) key lo hi
      = BitVec.ofInt 64 (total (rows.filter fun e => lo ≤ key e.instant ∧ key e.instant < hi)) := by
  rw [windowSum, deltas, filter_map, map_map, total, ← sum_map_ofInt, map_map]
  rfl

/-- The fold of an account's buckets. -/
theorem Plane.Inv.foldRange_eq {p : Plane} (h : p.Inv) (k : Nat) {lo : Int} (hlo : 0 ≤ lo)
    (hle : lo ≤ at') (hat : unix at' ≤ 9223372036854775807) :
    foldRange balGrains startSeconds (p.rollup k) lo at'
      = BitVec.ofInt 64
        (total ((rowsOf p.book.ever k).filter fun e => Folded lo at' e.instant)) := by
  have hdated : ∀ e ∈ rowsOf p.book.ever k, InCalendar e.instant :=
    fun e he => h.dated e (mem_rowsOf.mp he).1
  rw [h.rolled k, foldRange_appendAll balGrains_valid hle (startSeconds_faithful hlo hat),
    windowSum_deltas]
  · refine congrArg (fun l => BitVec.ofInt 64 (total l)) (filter_congr fun e he => ?_)
    have hrange := inRange_truncate (hdated e he) balGrains_valid.root_lt
    rw [root_truncate] at hrange ⊢
    rw [startSeconds_of_nonneg hlo ((unix_mono hle).trans hat),
      startSeconds_of_nonneg (hlo.trans hle) hat, decide_eq_decide]
    unfold Folded
    by_cases hneg : hourOf e.instant < 0
    · -- before the epoch: outside the window on both sides
      rw [startSeconds_of_neg hneg hrange.1]
      have := hrange.1
      unfold unix ofUnix at *
      omega
    · rw [startSeconds_of_nonneg (by omega) hrange.2]
      unfold unix ofUnix at *
      omega
  · intro e he l hl
    obtain ⟨r, hr, rfl⟩ := mem_map.mp he
    exact inRange_truncate (hdated r hr) hl

/-! ### The two reads -/

namespace Plane

/-- The query lies in the calendar from the epoch on, and so does the checkpoint it
starts from. -/
def FromEpoch (p : Plane) (id : String) (at' : Int) : Prop :=
  0 ≤ at' ∧ InCalendar at' ∧ ∀ a ∈ p.book.tables.accounts, a.id = id →
    ∀ c ∈ p.book.tables.checkpointFor a.key at', 0 ≤ c.atUnix
deriving Decidable

/-- The rows of the account that the fast read skips and those it repeats cancel out. -/
def Cancels (p : Plane) (id : String) (at' : Int) : Prop :=
  ∀ a ∈ p.book.tables.accounts, a.id = id →
    let ck := (p.book.tables.checkpointFor a.key at').map atUnix
    total ((rowsOf p.book.tables.journal a.key).filter fun e => Skipped ck at' e.instant)
      = total ((rowsOf p.book.tables.journal a.key).filter fun e => Repeated ck at' e.instant)
deriving Decidable

variable {p : Plane} {a : Account} {id : String} {at' : Int}

/-- `balanceAsOf` in terms of rows: those in the checkpoint and those in the buckets. -/
theorem Inv.balanceAsOf_eq (h : p.Inv) (ha : p.book.tables.account? id = some a)
    (hq : p.FromEpoch id at') {ck : Option Int}
    (hck : (p.book.tables.checkpointFor a.key at').map atUnix = ck) :
    p.balanceAsOf id at' = .ok (BitVec.ofInt 64
      (total ((rowsOf p.book.ever a.key).filter fun e => Kept ck e.instant)
        + total ((rowsOf p.book.ever a.key).filter
            fun e => Folded (foldStart ck) at' e.instant))).toInt := by
  obtain ⟨hat, hcal, hfrom⟩ := hq
  have hunix : unix at' ≤ 9223372036854775807 := by
    have := hcal.2
    unfold unix
    omega
  obtain ⟨hmem, hid⟩ := Tables.account?_spec ha
  unfold balanceAsOf
  rw [ha]
  dsimp only
  rcases hc : p.book.tables.checkpointFor a.key at' with _ | c
  · rw [hc] at hck
    subst hck
    have hkept : (rowsOf p.book.ever a.key).filter (fun e => Kept none e.instant) = [] :=
      filter_eq_nil_iff.mpr fun e _ he => show Kept none e.instant from of_decide_eq_true he
    rw [h.foldRange_eq a.key le_rfl hat hunix, Option.map_none, hkept, total_nil,
      ← BitVec.ofInt_add]
    rfl
  · rw [hc] at hck
    subst hck
    obtain ⟨hcm, hkey, -, hle, -⟩ := latestCheckpoint_some hc
    have hnonneg := hfrom a hmem hid c hc
    have hexact := h.sound.exact c hcm
    unfold Exact at hexact
    rw [hkey] at hexact
    have hlo : 0 ≤ ofUnix c.atUnix := by unfold ofUnix; omega
    have hle' : ofUnix c.atUnix ≤ at' := le_ofUnix_iff.mpr (by simpa using hle)
    dsimp only
    rw [h.foldRange_eq a.key hlo hle' hunix, hexact, ← BitVec.ofInt_add]
    rfl

theorem Inv.balanceAsOfExact_eq (h : p.Inv) (ha : p.book.tables.account? id = some a) :
    p.book.tables.balanceAsOfExact id at'
      = .ok (total ((rowsOf p.book.ever a.key).filter fun e => e.instant < at')) := by
  unfold Tables.balanceAsOfExact
  rw [ha]
  dsimp only
  rw [h.sound.sum_retained, h.complete]

end Plane

/-- Words agree with integers within one turn. -/
theorem toInt_ofInt_eq_iff {x y : Int} (hy : InRange y)
    (hxy : |x - y| < 18446744073709551616) : (BitVec.ofInt 64 x).toInt = y ↔ x = y := by
  have := abs_lt.mp hxy
  unfold InRange at hy
  rw [BitVec.toInt_ofInt, Int.bmod_def]
  split <;> omega

theorem abs_total_filter_le (l : List Entry) (k : Nat) (q : Entry → Bool) :
    |total ((rowsOf l k).filter q)| ≤ turnover l k :=
  (abs_total_le _).trans (sum_abs_filter_le ..)

/-- **The two reads of a balance**, after any run without pruning whose steps are
`SecondSafe` and whose transfers lie in the calendar: from the epoch on they agree
exactly when the rows that the fast read skips and those it repeats cancel out. -/
theorem balanceAsOf_eq_exact_iff (sealer : Option Sealer) (cmds : List BookCmd)
    (hkeep : ∀ c ∈ cmds, c.keepsRows = true ∧ c.InCalendar)
    (h : Along Plane.step (fun p c => p.book.SecondSafe c) (Plane.init sealer) cmds) (id : String)
    (at' : Int) (hq : (run Plane.step (Plane.init sealer) cmds).FromEpoch id at') :
    (run Plane.step (Plane.init sealer) cmds).balanceAsOf id at'
        = (run Plane.step (Plane.init sealer) cmds).book.tables.balanceAsOfExact id at' ↔
      (run Plane.step (Plane.init sealer) cmds).Cancels id at' := by
  have hinv : (run Plane.step (Plane.init sealer) cmds).Inv := by
    refine invariant_of_along (I := Plane.Inv) (fun p c hp hc => ?_) ?_ (h.and_forall hkeep)
    · exact Plane.inv_step hp c hc.1 hc.2.1 hc.2.2
    · exact ⟨Sound.empty, rfl, fun k => rfl,
        fun e he => absurd he (by simp [Plane.init, Book.init])⟩
  generalize run Plane.step (Plane.init sealer) cmds = p at *
  rcases ha : p.book.tables.account? id with _ | a
  · -- no such account: both reads say so
    refine iff_of_true ?_ ?_
    · unfold Plane.balanceAsOf Tables.balanceAsOfExact
      rw [ha]
    · intro a hmem hid
      have := find?_eq_none.mp ha a hmem
      simp [hid] at this
  obtain ⟨hmem, hid⟩ := Tables.account?_spec ha
  have hcancel : p.Cancels id at' ↔
      total ((rowsOf p.book.ever a.key).filter fun e => Skipped
          ((p.book.tables.checkpointFor a.key at').map atUnix) at' e.instant)
        = total ((rowsOf p.book.ever a.key).filter fun e => Repeated
          ((p.book.tables.checkpointFor a.key at').map atUnix) at' e.instant) := by
    unfold Plane.Cancels
    rw [← hinv.complete]
    refine ⟨fun hc => hc a hmem hid, fun hc b hb hbid => ?_⟩
    rwa [hinv.sound.ids.eq_of_key hb hmem (hbid.trans hid.symm)]
  -- from here on only the second of the checkpoint matters
  generalize hck : (p.book.tables.checkpointFor a.key at').map atUnix = ck at *
  have hle : ∀ u ∈ ck, u ≤ unix at' := by
    intro u hu
    rw [← hck] at hu
    obtain ⟨c, hc, rfl⟩ := Option.mem_map.mp hu
    simpa using (latestCheckpoint_some hc).2.2.2.1
  have hfast := total_fast hq.1 hle (rowsOf p.book.ever a.key)
  have hturn := hinv.sound.range a.key
  have hE := abs_le.mp (abs_total_filter_le p.book.ever a.key fun e => e.instant < at')
  have hS := abs_le.mp (abs_total_filter_le p.book.ever a.key fun e => Skipped ck at' e.instant)
  have hR := abs_le.mp (abs_total_filter_le p.book.ever a.key fun e => Repeated ck at' e.instant)
  rw [hinv.balanceAsOf_eq ha hq hck, hinv.balanceAsOfExact_eq ha, hcancel, Except.ok.injEq,
    toInt_ofInt_eq_iff ⟨by omega, by omega⟩ (by rw [abs_lt]; omega)]
  omega

/-- A checkpoint at a whole hour, and transfers before and after it. -/
def hourlyRun : List BookCmd :=
  twoAccounts "" ++ [pay 5 4200000000000, .checkpoint "a" 7200000000000, pay 7 9000000000000]

theorem hourlyRun_agrees : let p := run Plane.step (Plane.init none) hourlyRun
    p.balanceAsOf "a" 10800000000000 = .ok (-12) ∧
      p.balanceAsOf "a" 10800000000000 = p.book.tables.balanceAsOfExact "a" 10800000000000 :=
  ⟨by decide, (balanceAsOf_eq_exact_iff none hourlyRun (by decide) (by decide) "a" 10800000000000
    (by decide)).mpr (by decide)⟩

/-- A transfer at half past midnight, and one at one o'clock with a checkpoint there. -/
def halfHourRun : List BookCmd := twoAccounts "" ++ [pay 5 1800000000000]

def boundaryRun : List BookCmd :=
  twoAccounts "" ++ [pay 5 3600000000000, .checkpoint "a" 3600000000000]

/-- At a quarter past midnight the fast read already has the transfer of half past, and
at two it has the one at the checkpoint twice. -/
theorem fast_read_differs : let p := run Plane.step (Plane.init none) halfHourRun
    let q := run Plane.step (Plane.init none) boundaryRun
    p.balanceAsOf "a" 900000000000 = .ok (-5) ∧
      p.book.tables.balanceAsOfExact "a" 900000000000 = .ok 0 ∧
      q.balanceAsOf "a" 7200000000000 = .ok (-10) ∧
      q.book.tables.balanceAsOfExact "a" 7200000000000 = .ok (-5) := by
  decide

end Xolu.Bal
