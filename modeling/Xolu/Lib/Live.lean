/-
# Infinite runs and fairness

An infinite run of a machine `step : σ → α → σ` is given by its first state and the command of each
moment.  A command is weakly fair if it is taken whenever it stays enabled, and strongly fair if it
is taken whenever it is enabled again and again.

Both come with one rule: what a fair command brings about, or brings nearer by a rank that nothing
else increases, happens (`WeaklyFair.eventually`, `StronglyFair.eventually`).
-/
import Mathlib.Data.List.GetD
import Mathlib.Order.WellFounded
import Xolu.Lib.Run

namespace Live

open List
variable {σ α : Type*} {step : σ → α → σ}

/-- The state at a moment of the run. -/
def stateAt (step : σ → α → σ) (s : σ) (act : Nat → α) : Nat → σ
  | 0 => s
  | n + 1 => step (stateAt step s act n) (act n)

/-- An invariant that every step keeps under the condition holds at every moment. -/
theorem stateAt_invariant {I : σ → Prop} {C : σ → α → Prop}
    (hstep : ∀ s a, I s → C s a → I (step s a)) {s : σ} {act : Nat → α} (h0 : I s)
    (h : ∀ n, C (stateAt step s act n) (act n)) (n : Nat) : I (stateAt step s act n) := by
  induction n with
  | zero => exact h0
  | succ n ih => exact hstep _ _ ih (h n)

/-- What stays enabled is taken. -/
def WeaklyFair (enabled taken : Nat → Prop) : Prop := ∀ n, (∀ m ≥ n, enabled m) → ∃ m ≥ n, taken m

/-- What is enabled again and again is taken. -/
def StronglyFair (enabled taken : Nat → Prop) : Prop :=
  ∀ n, (∀ m ≥ n, ∃ k ≥ m, enabled k) → ∃ m ≥ n, enabled m ∧ taken m

variable {enabled taken Q : Nat → Prop} {r : Nat → Nat} {n : Nat}

/-- A rank does not decrease again and again. -/
theorem not_decreasing (hkeep : ∀ m ≥ n, r (m + 1) ≤ r m) :
    ¬ ∀ m ≥ n, ∃ k ≥ m, r (k + 1) < r k := by
  intro hstep
  -- at the least of the ranks it does not decrease any more
  obtain ⟨m, hm, hleast⟩ := (measure r).wf.has_min {m | n ≤ m} ⟨n, Nat.le_refl n⟩
  obtain ⟨k, hk, hlt⟩ := hstep m hm
  have hle : r k ≤ r m := antitoneOn_nat_Ici_of_succ_le hkeep hm (hm.trans hk) hk
  exact hleast (k + 1) ((hm.trans hk).trans k.le_succ) (hlt.trans_le hle)

/-- What a rank comes nearer to again and again happens. -/
theorem eventually_of_rank (n : Nat) (hkeep : ∀ m ≥ n, ¬ Q m → Q (m + 1) ∨ r (m + 1) ≤ r m)
    (hstep : (∀ m ≥ n, ¬ Q m) → ∀ m ≥ n, ∃ k ≥ m, Q (k + 1) ∨ r (k + 1) < r k) : ∃ m ≥ n, Q m := by
  by_contra hnone
  have hnever : ∀ m ≥ n, ¬ Q m := fun m hm hQ => hnone ⟨m, hm, hQ⟩
  refine not_decreasing (r := r) (n := n) (fun m hm => ?_) fun m hm => ?_
  · exact (hkeep m hm (hnever m hm)).resolve_left (hnever (m + 1) (by omega))
  · obtain ⟨k, hk, hnear⟩ := hstep hnever m hm
    exact ⟨k, hk, hnear.resolve_left (hnever (k + 1) (by omega))⟩

/-- **Weak fairness**: until `Q` holds the command is enabled and brings it nearer. -/
theorem WeaklyFair.eventually (h : WeaklyFair enabled taken) (n : Nat)
    (henabled : ∀ m ≥ n, ¬ Q m → enabled m) (hkeep : ∀ m ≥ n, ¬ Q m → Q (m + 1) ∨ r (m + 1) ≤ r m)
    (hstep : ∀ m ≥ n, ¬ Q m → taken m → Q (m + 1) ∨ r (m + 1) < r m) : ∃ m ≥ n, Q m := by
  refine eventually_of_rank n hkeep fun hnever m hm => ?_
  obtain ⟨k, hk, htaken⟩ := h m fun k hk => henabled k (hm.trans hk) (hnever k (hm.trans hk))
  exact ⟨k, hk, hstep k (hm.trans hk) (hnever k (hm.trans hk)) htaken⟩

/-- **Strong fairness**: until `Q` holds the command is enabled again and brings it nearer. -/
theorem StronglyFair.eventually (h : StronglyFair enabled taken) (n : Nat)
    (henabled : ∀ m ≥ n, ¬ Q m → ∃ k ≥ m, Q k ∨ enabled k)
    (hkeep : ∀ m ≥ n, ¬ Q m → Q (m + 1) ∨ r (m + 1) ≤ r m)
    (hstep : ∀ m ≥ n, ¬ Q m → enabled m → taken m → Q (m + 1) ∨ r (m + 1) < r m) :
    ∃ m ≥ n, Q m := by
  refine eventually_of_rank n hkeep fun hnever m hm => ?_
  obtain ⟨k, hk, hen, htaken⟩ := h m fun k hk => by
    obtain ⟨l, hl, hQ | hen⟩ := henabled k (hm.trans hk) (hnever k (hm.trans hk))
    · exact absurd hQ (hnever l ((hm.trans hk).trans hl))
    · exact ⟨l, hl, hen⟩
  exact ⟨k, hk, hstep k (hm.trans hk) (hnever k (hm.trans hk)) hen htaken⟩

/-! ### Runs that come to rest -/

variable {N : Nat}

theorem WeaklyFair.of_not (h : ∀ n ≥ N, ¬ enabled n) : WeaklyFair enabled taken :=
  fun n hn => absurd (hn (max n N) (le_max_left n N)) (h _ (le_max_right n N))

theorem WeaklyFair.of_taken (h : ∀ n ≥ N, taken n) : WeaklyFair enabled taken :=
  fun n _ => ⟨max n N, le_max_left n N, h _ (le_max_right n N)⟩

theorem StronglyFair.of_not (h : ∀ n ≥ N, ¬ enabled n) : StronglyFair enabled taken := by
  intro n hn
  obtain ⟨k, hk, henabled⟩ := hn (max n N) (le_max_left n N)
  exact absurd henabled (h k ((le_max_right n N).trans hk))

/-- The commands of a list, and then one command for ever. -/
def thenForever (l : List α) (b : α) (n : Nat) : α := l.getD n b

theorem stateAt_take (s : σ) (l : List α) (b : α) (hn : n ≤ l.length) :
    stateAt step s (thenForever l b) n = Runs.run step s (l.take n) := by
  induction n with
  | zero => rfl
  | succ n ih =>
    have hlt : n < l.length := hn
    rw [stateAt, ih hlt.le, take_add_one, Runs.run_append, getElem?_eq_getElem hlt,
      thenForever, getD_eq_getElem?_getD, getElem?_eq_getElem hlt]
    rfl

/-- A run whose last command changes nothing comes to rest. -/
theorem stateAt_rest {s : σ} {l : List α} {b : α}
    (hrest : step (Runs.run step s l) b = Runs.run step s l) (hn : l.length ≤ n) :
    stateAt step s (thenForever l b) n = Runs.run step s l := by
  induction hn with
  | refl => rw [stateAt_take s l b le_rfl, take_length]
  | step hn ih =>
    rw [stateAt, ih, thenForever, getD_eq_default _ _ hn, hrest]

end Live
