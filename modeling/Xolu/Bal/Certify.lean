/-
# What the chain verifier certifies (pkg/bal/verify.go)

`noFalseAlarm_run` is about the rows the ledger itself writes.  A verifier is for the others:
here the journal is any table with the columns of the schema, 64-bit integers under a primary
key, and the question is what an empty report says about the history.

The walk links each row to the one before it and never asks where the first one starts.  So
an empty report fixes the balances of an account up to its opening balance and up to a turn
of the 64-bit integers: `noBreaks_certified_iff`.
-/
import Xolu.Bal.Verify

namespace Xolu.Bal

open List Num64 Keyed

/-- The columns are 64-bit integers. -/
def JournalRow.InInt64 (r : JournalRow) : Prop :=
  InRange r.amount ∧ InRange r.previousBalance ∧ InRange r.currentBalance ∧ InRange r.version
deriving Decidable

/-- Any contents of the journal table. -/
structure JournalTable where
  rows : List JournalRow
  ints : ∀ r ∈ rows, r.InInt64
  pk : UniqueKey JournalRow.entryId rows

/-! ### What an empty report says -/

variable (rows : List JournalRow)

/-- The sum of the first `n` amounts. -/
def prefixSum (n : Nat) : Int := ((rows.take n).map JournalRow.amount).sum

variable {rs : List JournalRow}

theorem prefixSum_succ (r : JournalRow) (rs : List JournalRow) (n : Nat) :
    prefixSum (r :: rs) (n + 1) = r.amount + prefixSum rs n := by
  simp [prefixSum]

/-- Linked rows count on from the version and the balance they start at. -/
theorem LinkedFrom.getElem? {pruned : Int → Int → Bool} {current version : Int}
    (h : LinkedFrom pruned (some (current, version)) rs) {i : Nat} {e : JournalRow}
    (hi : rs[i]? = some e) : e.version = wrap (version + (i + 1)) ∧
      e.currentBalance = wrap (current + prefixSum rs (i + 1)) := by
  induction rs generalizing current version i with
  | nil => cases hi
  | cons r rs ih =>
    obtain ⟨⟨harith, hprev, hver⟩, hrest⟩ := h
    rw [prefixSum_succ]
    cases i with
    | zero =>
      obtain rfl : r = e := by simpa using hi
      refine ⟨by simpa using hver, ?_⟩
      rw [← harith, hprev]
      simp [prefixSum]
    | succ i =>
      obtain ⟨hv, hc⟩ := ih hrest (by simpa using hi)
      refine ⟨?_, ?_⟩
      · rw [hv, hver, wrap_add_wrap_left]
        congr 1
        omega
      · rw [hc, ← harith, wrap_add_wrap_left, hprev, add_assoc]

/-- The rows of one account start from the previous balance of the first. -/
theorem LinkedFrom.of_first {r : JournalRow} (h : LinkedFrom (fun _ _ => false) none (r :: rs)) :
    LinkedFrom (fun _ _ => false) (some (r.previousBalance, 0)) (r :: rs) :=
  ⟨⟨h.1.1, rfl, h.1.2.resolve_right Bool.false_ne_true⟩, h.2⟩

/-- Versions count from 1 and every balance is the sum of the amounts so far. -/
def Certified : Prop :=
  ∀ (i : Nat) (e : JournalRow), rows[i]? = some e →
    e.version = i + 1 ∧ e.currentBalance = prefixSum rows (i + 1)

/-- The first row starts from nothing, there are fewer than `2^63` rows, and no sum of the
amounts so far leaves int64. -/
def Grounded : Prop :=
  (∀ r ∈ rows.head?, r.previousBalance = 0) ∧ rows.length < 2 ^ 63 ∧
    ∀ i < rows.length, InRange (prefixSum rows (i + 1))

instance (rows : List JournalRow) : Decidable (Grounded rows) :=
  inferInstanceAs (Decidable (_ ∧ _ ∧ _))

theorem LinkedFrom.certified_iff {rows : List JournalRow}
    (h : LinkedFrom (fun _ _ => false) none rows) (hint : ∀ r ∈ rows, r.InInt64) :
    Certified rows ↔ Grounded rows := by
  cases rows with
  | nil => simp [Certified, Grounded]
  | cons r rs =>
    have hall := h.of_first
    constructor
    · intro hc
      have hget : ∀ i < (r :: rs).length, ∃ e ∈ r :: rs, (r :: rs)[i]? = some e := fun i hi =>
        ⟨(r :: rs)[i], getElem_mem hi, getElem?_eq_getElem hi⟩
      refine ⟨?_, ?_, ?_⟩
      · -- the first balance is the first amount, so nothing was there before
        intro r' hr'
        obtain rfl : r = r' := by simpa using hr'
        obtain ⟨-, hprev, hcur, -⟩ := hint r mem_cons_self
        have hcur' := (hc 0 r rfl).2
        have harith := h.1.1
        rw [hcur', prefixSum_succ] at harith
        simp only [prefixSum, take_zero, map_nil, sum_nil, add_zero] at harith
        unfold wrap InRange at *
        omega
      · -- the last version is the number of rows
        obtain ⟨e, he, hi⟩ := hget rs.length (by simp)
        have hver := (hc _ e hi).1
        obtain ⟨-, -, -, hrange⟩ := hint e he
        unfold InRange at hrange
        rw [length_cons]
        omega
      · intro i hi
        obtain ⟨e, he, hei⟩ := hget i hi
        rw [← (hc i e hei).2]
        exact (hint e he).2.2.1
    · rintro ⟨hfirst, hlen, hsum⟩ i e hi
      obtain ⟨hlt, -⟩ := List.getElem?_eq_some_iff.mp hi
      obtain ⟨hver, hcur⟩ := hall.getElem? hi
      rw [hfirst r rfl, zero_add, wrap_of_inRange (hsum i hlt)] at hcur
      rw [zero_add, wrap_of_inRange ⟨by omega, by omega⟩] at hver
      exact ⟨hver, hcur⟩

/-- **What an empty report certifies**, for any contents of the journal and no checkpoints:
the histories of all accounts, exactly if every first row starts from balance 0 and no sum
leaves int64. -/
theorem noBreaks_certified_iff (j : JournalTable) (h : verifyTable (fun _ _ => false) j.rows = []) :
    (∀ k, Certified (accountRows j.rows k)) ↔ ∀ k, Grounded (accountRows j.rows k) := by
  rw [verifyTable_eq_nil_iff j.pk] at h
  apply forall_congr'
  intro k
  apply (h k).certified_iff
  intro r hr
  exact j.ints r (mem_filter.mp ((perm_insertionSort _ _).subset hr)).1

/-- Two rows of one account, the later one first in the table. -/
def twoRows : JournalTable where
  rows := [⟨7, 1, -2, 5, 3, 2⟩, ⟨4, 1, 5, 0, 5, 1⟩]
  ints := by decide
  pk := by unfold UniqueKey; decide

theorem twoRows_certified : verifyTable (fun _ _ => false) twoRows.rows = [] ∧
      ∀ k, Certified (accountRows twoRows.rows k) := by
  have hnone : verifyTable (fun _ _ => false) twoRows.rows = [] := by decide
  refine ⟨hnone, (noBreaks_certified_iff twoRows hnone).mpr ?_⟩
  intro k
  by_cases hk : k = 1
  · subst hk
    decide
  · have hnil : accountRows twoRows.rows k = [] := by
      simp [accountRows, twoRows, Ne.symm hk]
    rw [hnil]
    decide

/-- A single row that adds 1 to a balance of 5 which no row has brought about. -/
def unexplainedRow : JournalTable where
  rows := [⟨1, 1, 1, 5, 6, 1⟩]
  ints := by decide
  pk := by unfold UniqueKey; decide

theorem unexplainedRow_passes : verifyTable (fun _ _ => false) unexplainedRow.rows = [] ∧
      ¬ Certified (accountRows unexplainedRow.rows 1) := by
  refine ⟨by decide, fun h => ?_⟩
  exact absurd (h 0 ⟨1, 1, 1, 5, 6, 1⟩ rfl).2 (by decide)

end Xolu.Bal
