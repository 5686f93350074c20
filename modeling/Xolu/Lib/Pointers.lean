/-
# Pointer maps without cycles

A pointer map gives each point at most one next point: `next : α → Option α`.  It is acyclic if no
point leads back to itself.  A pointer may be dropped, and it may be turned to a point that does
not lead back to it; both keep the map acyclic.  `Steps` counts the pointers of a path; a path
after a pointer is turned is one of before, or one up to the pointer and one on from its new end.
-/
import Mathlib.Logic.Function.Basic
import Mathlib.Logic.Relation

namespace Pointers

open Function Relation

variable {α : Type*} {next next' : α → Option α} {a b x y : α}

variable (next)

/-- The pointer of a point. -/
def Link (a b : α) : Prop := next a = some b

/-- The pointers lead from a point to another, or to itself in no steps. -/
def Reaches : α → α → Prop := ReflTransGen (Link next)

/-- No point leads back to itself. -/
def Acyclic : Prop := ∀ a, ¬ TransGen (Link next) a a

variable {next}

/-- So many pointers lead from a point to another. -/
def Steps (next : α → Option α) : Nat → α → α → Prop
  | 0, a, b => a = b
  | n + 1, a, b => ∃ c, next a = some c ∧ Steps next n c b

/-- Fewer pointers make no cycle. -/
theorem Acyclic.mono (h : Acyclic next) (hsub : ∀ a b, next' a = some b → next a = some b) :
    Acyclic next' :=
  fun a hcycle => h a (TransGen.mono hsub a a hcycle)

theorem acyclic_none : Acyclic fun _ : α => none := by
  intro a h
  obtain ⟨b, hb, -⟩ := TransGen.head'_iff.mp h
  cases hb

variable {n : Nat}

theorem Steps.reaches (h : Steps next n a b) : Reaches next a b := by
  induction n generalizing a with
  | zero => exact h ▸ .refl
  | succ n ih =>
    obtain ⟨c, hlink, hpath⟩ := h
    exact ReflTransGen.head hlink (ih hpath)

theorem Steps.mono (hsub : ∀ a b, next' a = some b → next a = some b)
    (h : Steps next' n a b) : Steps next n a b := by
  induction n generalizing a with
  | zero => exact h
  | succ n ih =>
    obtain ⟨c, hlink, hpath⟩ := h
    exact ⟨c, hsub a c hlink, ih hpath⟩

theorem Steps.append {m n : Nat} (h : Steps next m a b) (h' : Steps next n b x) :
    Steps next (m + n) a x := by
  induction m generalizing a with
  | zero =>
    rw [Nat.zero_add]
    exact h ▸ h'
  | succ m ih =>
    obtain ⟨c, hlink, hpath⟩ := h
    rw [Nat.add_right_comm]
    exact ⟨c, hlink, ih hpath⟩

/-- The last pointer of a path. -/
theorem Steps.last (h : Steps next (n + 1) a b) : ∃ c, Steps next n a c ∧ next c = some b := by
  induction n generalizing a with
  | zero =>
    obtain ⟨c, hlink, rfl⟩ := h
    exact ⟨a, rfl, hlink⟩
  | succ n ih =>
    obtain ⟨c, hlink, hpath⟩ := h
    obtain ⟨d, hpath, hlast⟩ := ih hpath
    exact ⟨d, ⟨c, hlink, hpath⟩, hlast⟩

variable [DecidableEq α] {v : Option α}

/-- From a point that does not lead to `a`, the pointer of `a` does not matter. -/
theorem reaches_update_iff (h : ¬ Reaches next b a) :
    Reaches (update next a v) b x ↔ Reaches next b x := by
  -- both ways along the path, which comes to `a` in neither map
  constructor
  · intro hreach
    induction hreach with
    | refl => exact .refl
    | tail _ hlink ih =>
      refine ih.tail ?_
      rwa [Link, update_of_ne] at hlink
      rintro rfl
      exact h ih
  · intro hreach
    induction hreach with
    | refl => exact .refl
    | tail hpath hlink ih =>
      refine ih.tail ?_
      rwa [Link, update_of_ne]
      rintro rfl
      exact h hpath

/-- A path after the pointer of `a` is turned to `b` was there before, or goes on from `b`. -/
theorem transGen_update (h : TransGen (Link (update next a (some b))) x y) :
    TransGen (Link next) x y ∨ Reaches next x a ∧ Reaches (update next a (some b)) b y := by
  have hlinks : ∀ {x y}, Link (update next a (some b)) x y → Link next x y ∨ x = a ∧ y = b := by
    intro x y hlink
    by_cases hx : x = a
    · subst hx
      rw [Link, update_self] at hlink
      exact .inr ⟨rfl, (Option.some.inj hlink).symm⟩
    · rw [Link, update_of_ne hx] at hlink
      exact .inl hlink
  -- after the new pointer is taken for the first time, all that is known is that `b` leads on
  induction h with
  | single hlink =>
    rcases hlinks hlink with hold | ⟨rfl, rfl⟩
    · exact .inl (.single hold)
    · exact .inr ⟨.refl, .refl⟩
  | tail _ hlink ih =>
    rcases ih with hpath | ⟨hx, hb⟩
    · rcases hlinks hlink with hold | ⟨rfl, rfl⟩
      · exact .inl (hpath.tail hold)
      · exact .inr ⟨hpath.to_reflTransGen, .refl⟩
    · exact .inr ⟨hx, hb.tail hlink⟩

/-- **A pointer** may be turned to a point that does not lead back to it. -/
theorem Acyclic.redirect (h : Acyclic next) (hb : ¬ Reaches next b a) :
    Acyclic (update next a (some b)) := by
  intro x hcycle
  rcases transGen_update hcycle with hold | ⟨hx, hback⟩
  · exact h x hold
  · exact hb (ReflTransGen.trans ((reaches_update_iff hb).mp hback) hx)

/-! ### Paths after a pointer is turned -/

/-- From a point that does not lead to `a`, the pointer of `a` does not matter. -/
theorem steps_update_iff (h : ¬ Reaches next b a) :
    Steps (update next a v) n b x ↔ Steps next n b x := by
  induction n generalizing b with
  | zero => exact Iff.rfl
  | succ n ih =>
    have hne : b ≠ a := fun e => h (e ▸ .refl)
    simp only [Steps, update_of_ne hne]
    refine exists_congr fun c => and_congr_right fun hlink => ih fun hreach => ?_
    exact h (ReflTransGen.head hlink hreach)

/-- The path up to `a` does not use the pointer of `a`. -/
theorem Acyclic.steps_update (h : Acyclic next)
    (hpath : Steps next n x a) : Steps (update next a v) n x a := by
  induction n generalizing x with
  | zero => exact hpath
  | succ n ih =>
    obtain ⟨c, hlink, hrest⟩ := hpath
    have hne : x ≠ a := by
      rintro rfl
      exact h x (TransGen.head' hlink hrest.reaches)
    refine ⟨c, ?_, ih hrest⟩
    rwa [update_of_ne hne]

/-- A path after the pointer of `a` is turned to `b`. -/
theorem steps_of_update (hb : ¬ Reaches next b a) (h : Steps (update next a (some b)) n x y) :
    Steps next n x y ∨ ∃ i j, n = i + 1 + j ∧ Steps next i x a ∧ Steps next j b y := by
  induction n generalizing x with
  | zero => exact .inl h
  | succ n ih =>
    obtain ⟨c, hlink, hrest⟩ := h
    by_cases hx : x = a
    · -- from `b` the path does not come back, so the pointer is taken once
      subst hx
      rw [update_self, Option.some.injEq] at hlink
      subst hlink
      exact .inr ⟨0, n, by omega, rfl, (steps_update_iff hb).mp hrest⟩
    · rw [update_of_ne hx] at hlink
      rcases ih hrest with hpath | ⟨i, j, rfl, hi, hj⟩
      · exact .inl ⟨c, hlink, hpath⟩
      · exact .inr ⟨i + 1, j, by omega, ⟨c, hlink, hi⟩, hj⟩

/-- A path up to `a` and one on from `b`, joined by the pointer that is turned. -/
theorem Acyclic.steps_redirect {i j : Nat} (h : Acyclic next) (hb : ¬ Reaches next b a)
    (hi : Steps next i x a) (hj : Steps next j b y) :
    Steps (update next a (some b)) (i + (j + 1)) x y := by
  refine (h.steps_update hi).append ⟨b, update_self .., ?_⟩
  exact (steps_update_iff hb).mpr hj

end Pointers
