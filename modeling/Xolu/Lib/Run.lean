/-
# Runs of a command machine

A machine is a total step function `step : σ → α → σ` on states `σ` and
commands `α`; a run is a list of commands.  `Along step C s l` says that every
command of `l`, started in `s`, meets `C` in the state it is issued in; it is the
form in which conditions on runs ("every transfer of the run ...") and properties
of runs ("after every step ...") are stated.

The rules below are the only inductions over runs: an invariant that one step
keeps holds after every run, and two conditions that agree step by step in the
states of an invariant agree on runs.
-/
import Mathlib.Data.List.Basic
import Mathlib.Order.Basic

namespace Runs

open List
variable {σ α : Type*} {step : σ → α → σ}

/-- The state a list of commands leads to. -/
def run (step : σ → α → σ) (s : σ) (l : List α) : σ := l.foldl step s

/-- Every command of the list meets `C` in the state it is issued in. -/
def Along (step : σ → α → σ) (C : σ → α → Prop) : σ → List α → Prop
  | _, [] => True
  | s, a :: l => C s a ∧ Along step C (step s a) l

variable {l : List α} {s : σ}

@[simp] theorem along_cons {C : σ → α → Prop} {a : α} :
    Along step C s (a :: l) ↔ C s a ∧ Along step C (step s a) l := Iff.rfl

instance Along.decidable (C : σ → α → Prop) [∀ s a, Decidable (C s a)] :
    ∀ s l, Decidable (Along step C s l)
  | _, [] => .isTrue trivial
  | s, a :: l =>
    have := Along.decidable C (step s a) l
    inferInstanceAs (Decidable (C s a ∧ Along step C (step s a) l))

variable {C P : σ → α → Prop}

theorem Along.and (hC : Along step C s l) (hP : Along step P s l) :
    Along step (fun s a => C s a ∧ P s a) s l := by
  induction l generalizing s with
  | nil => exact True.intro
  | cons a l ih => exact ⟨⟨hC.1, hP.1⟩, ih hC.2 hP.2⟩

/-- A condition on the commands alone can be read along the run. -/
theorem Along.of_forall (h : ∀ a ∈ l, ∀ s, C s a) : Along step C s l := by
  induction l generalizing s with
  | nil => exact True.intro
  | cons a l ih =>
    rw [forall_mem_cons] at h
    exact ⟨h.1 s, ih h.2⟩

theorem Along.and_forall {Q : α → Prop} (hl : Along step C s l)
    (hQ : ∀ a ∈ l, Q a) : Along step (fun s a => C s a ∧ Q a) s l :=
  hl.and (.of_forall fun a ha _ => hQ a ha)

theorem Along.trivial : Along step (fun _ _ => True) s l := .of_forall fun _ _ _ => True.intro

theorem run_append (s : σ) (l l' : List α) : run step s (l ++ l') = run step (run step s l) l' :=
  foldl_append

theorem along_append {l l' : List α} :
    Along step C s (l ++ l') ↔ Along step C s l ∧ Along step C (run step s l) l' := by
  induction l generalizing s with
  | nil => exact (and_iff_right True.intro).symm
  | cons a l ih => rw [cons_append, along_cons, along_cons, ih, and_assoc]; rfl

variable {I : σ → Prop}

/-- **Invariant rule.**  An invariant that every step keeps under the step
condition `C` holds after every run along `C`. -/
theorem invariant_of_along (hstep : ∀ s a, I s → C s a → I (step s a))
    (h0 : I s) (hl : Along step C s l) : I (run step s l) := by
  induction l generalizing s with
  | nil => exact h0
  | cons a l ih => exact ih (hstep s a h0 hl.1) hl.2

/-- The invariant rule without a step condition. -/
theorem invariant_run (hstep : ∀ s a, I s → I (step s a)) (h0 : I s)
    (l : List α) : I (run step s l) :=
  invariant_of_along (C := fun _ _ => True) (fun s a h _ => hstep s a h) h0 .trivial

/-- Step properties of an invariant are properties of every step of a run. -/
theorem along_of_invariant (hstep : ∀ s a, I s → C s a → I (step s a))
    (hP : ∀ s a, I s → C s a → P s a) (h0 : I s) (hl : Along step C s l) : Along step P s l := by
  induction l generalizing s with
  | nil => trivial
  | cons a l ih => exact ⟨hP s a h0 hl.1, ih (hstep s a h0 hl.1) hl.2⟩

/-- Two step conditions that agree in the states of an invariant agree on runs.  `N`
is a standing assumption on the commands. -/
theorem along_iff_of_invariant {N : σ → α → Prop}
    (hstep : ∀ s a, I s → N s a → C s a → I (step s a)) (hPC : ∀ s a, I s → N s a → (P s a ↔ C s a))
    (h0 : I s) (hN : Along step N s l) : Along step P s l ↔ Along step C s l := by
  induction l generalizing s with
  | nil => exact Iff.rfl
  | cons a l ih =>
    simp only [along_cons]
    rw [hPC s a h0 hN.1]
    refine and_congr_right fun hC => ?_
    exact ih (hstep s a h0 hN.1 hC) hN.2

/-! ### Runs that stop at an error -/

section untilError

variable {ε : Type*} {β : Type*} [Preorder β] {f : σ → α → Except ε σ} {m : σ → β}

/-- One step after another until one is refused; what the steps before it did stays. -/
def untilError (f : σ → α → Except ε σ) : σ → List α → σ × Option ε
  | s, [] => (s, none)
  | s, a :: l =>
    match f s a with
    | .error e => (s, some e)
    | .ok s' => untilError f s' l

/-- What every step increases does not decrease. -/
theorem le_untilError {l : List α} (hm : ∀ a ∈ l, ∀ s s', f s a = .ok s' → m s < m s') (s : σ) :
    m s ≤ m (untilError f s l).1 := by
  induction l generalizing s with
  | nil => exact le_rfl
  | cons a l ih =>
    rw [forall_mem_cons] at hm
    rw [untilError]
    split
    · exact le_rfl
    · exact (hm.1 s _ ‹_›).le.trans (ih hm.2 _)

/-- **Nothing happened or something increased**: a run that stops at an error has stopped at its
first step, or has increased what every step increases. -/
theorem untilError_cases {l : List α} (hm : ∀ a ∈ l, ∀ s s', f s a = .ok s' → m s < m s') {s : σ}
    (h : (untilError f s l).2.isSome) :
    (untilError f s l).1 = s ∧ (∃ a ∈ l.head?, ∃ e, f s a = .error e) ∨
      m s < m (untilError f s l).1 ∧ ¬ ∃ a ∈ l.head?, ∃ e, f s a = .error e := by
  cases l with
  | nil => cases h
  | cons a l =>
    rw [forall_mem_cons] at hm
    rw [untilError]
    split
    · next e he => exact .inl ⟨rfl, a, rfl, e, he⟩
    · next s' hs =>
      refine .inr ⟨(hm.1 s s' hs).trans_le (le_untilError hm.2 s'), ?_⟩
      rintro ⟨_, ⟨⟩, e, he⟩
      rw [hs] at he
      cases he

/-- A run meets no error if and only if each step is taken where the steps before it lead. -/
theorem untilError_eq_none_iff {γ : Type*} {g : γ → α} {l : List γ} :
    (untilError f s (l.map g)).2 = none ↔
      ∀ l₁ a l₂, l = l₁ ++ a :: l₂ → ∃ s', f (untilError f s (l₁.map g)).1 (g a) = .ok s' := by
  induction l generalizing s with
  | nil => exact iff_of_true rfl fun l₁ a l₂ h => by simp at h
  | cons b l ih =>
    rw [map_cons, untilError]
    split
    · next e he =>
      refine iff_of_false nofun fun h => ?_
      obtain ⟨s', hs⟩ := h [] b l rfl
      rw [map_nil, untilError, he] at hs
      cases hs
    · next s' hs =>
      rw [ih]
      constructor
      · rintro h (- | ⟨c, l₁⟩) a l₂ heq
        · obtain ⟨rfl, -⟩ := cons.inj heq
          exact ⟨s', hs⟩
        · obtain ⟨rfl, rfl⟩ := cons.inj heq
          simpa only [map_cons, untilError, hs] using h l₁ a l₂ rfl
      · intro h l₁ a l₂ heq
        simpa only [map_cons, untilError, hs] using h (b :: l₁) a l₂ (congrArg (cons b) heq)

theorem mapError_eq_ok {ε' : Type*} {g : ε → ε'} {x : Except ε σ} :
    x.mapError g = .ok s ↔ x = .ok s := by
  cases x <;> simp [Except.mapError]

end untilError

end Runs
