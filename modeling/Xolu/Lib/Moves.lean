/-
# Guarded moves between bounded counters

A move takes an amount off one counter and adds it to another, if a guard on the value of
each allows it.  The guard of the source is monotone and the guard of the target is
antitone, as a floor and a ceiling are; this is part of the type.

A list of moves can be carried out in every order iff each of them can be carried out
last among those that compete with it (`passes_perm_iff`): the source is tested after all
other withdrawals from it and no deposit, the target after all other deposits and no
withdrawal.
-/
import Mathlib.Algebra.Order.BigOperators.Group.List
import Mathlib.Algebra.Order.Ring.Int

namespace Moves

open List
/-- A move between counters with values from `lo` to `hi`. -/
structure Move (K : Type*) (lo hi : Int) where
  src : K
  dst : K
  amount : Int
  /-- The guard on the value of the source before the move. -/
  low : Int → Prop
  /-- The guard on the value of the target before the move. -/
  high : Int → Prop
  ne : src ≠ dst
  nonneg : 0 ≤ amount
  low_mono : ∀ {v w : Int}, lo ≤ v → v ≤ w → w ≤ hi → low v → low w
  high_anti : ∀ {v w : Int}, lo ≤ v → v ≤ w → w ≤ hi → high w → high v
  low_range : ∀ {v : Int}, low v → lo ≤ v - amount
  high_range : ∀ {v : Int}, high v → v + amount ≤ hi

variable {K : Type*} [DecidableEq K] {lo hi : Int}

/-- The counters after a move. -/
def Move.post (m : Move K lo hi) (f : K → Int) (k : K) : Int :=
  f k + (if k = m.src then -m.amount else 0) + (if k = m.dst then m.amount else 0)

/-- The counters after a list of moves. -/
def after (f : K → Int) : List (Move K lo hi) → K → Int
  | [] => f
  | m :: l => after (m.post f) l

/-- The guards of all moves hold, one after another. -/
def Passes : (K → Int) → List (Move K lo hi) → Prop
  | _, [] => True
  | f, m :: l => m.low (f m.src) ∧ m.high (f m.dst) ∧ Passes (m.post f) l

/-- All withdrawals from a counter. -/
def debits (l : List (Move K lo hi)) (k : K) : Int :=
  (l.map fun m => if m.src = k then m.amount else 0).sum

/-- All deposits to a counter. -/
def credits (l : List (Move K lo hi)) (k : K) : Int :=
  (l.map fun m => if m.dst = k then m.amount else 0).sum

section

variable {l l' : List (Move K lo hi)} {m : Move K lo hi} {f : K → Int} {k : K}

theorem debits_cons : debits (m :: l) k = (if m.src = k then m.amount else 0) + debits l k := rfl

theorem credits_cons : credits (m :: l) k = (if m.dst = k then m.amount else 0) + credits l k :=
  rfl

theorem debits_nonneg : 0 ≤ debits l k := by
  apply sum_nonneg
  intro x hx
  obtain ⟨m, -, rfl⟩ := mem_map.mp hx
  have := m.nonneg
  split <;> omega

theorem credits_nonneg : 0 ≤ credits l k := by
  apply sum_nonneg
  intro x hx
  obtain ⟨m, -, rfl⟩ := mem_map.mp hx
  have := m.nonneg
  split <;> omega

theorem debits_perm (h : l.Perm l') : debits l k = debits l' k := (h.map _).sum_eq

theorem credits_perm (h : l.Perm l') : credits l k = credits l' k := (h.map _).sum_eq

/-- Only the moves out of `k` count. -/
theorem debits_filter : debits (l.filter fun m => m.src = k) k = debits l k := by
  simp [debits, sum_map_ite, filter_filter]

theorem credits_filter : credits (l.filter fun m => m.dst = k) k = credits l k := by
  simp [credits, sum_map_ite, filter_filter]

/-- Moves out of `k` do not go into `k`. -/
theorem credits_eq_zero (h : ∀ m ∈ l, m.dst ≠ k) : credits l k = 0 := by
  apply sum_eq_zero
  intro x hx
  obtain ⟨m, hm, rfl⟩ := mem_map.mp hx
  exact if_neg (h m hm)

theorem debits_eq_zero (h : ∀ m ∈ l, m.src ≠ k) : debits l k = 0 := by
  apply sum_eq_zero
  intro x hx
  obtain ⟨m, hm, rfl⟩ := mem_map.mp hx
  exact if_neg (h m hm)

theorem after_apply (l : List (Move K lo hi)) (f : K → Int) (k : K) :
    after f l k = f k - debits l k + credits l k := by
  induction l generalizing f with
  | nil => simp [after, debits, credits]
  | cons m l ih =>
    rw [after, ih, debits_cons, credits_cons, Move.post]
    simp only [eq_comm (a := k)]
    split <;> split <;> omega

theorem passes_append (l l' : List (Move K lo hi)) (f : K → Int) :
    Passes f (l ++ l') ↔ Passes f l ∧ Passes (after f l) l' := by
  induction l generalizing f with
  | nil => simp [Passes, after]
  | cons m l ih => simp only [cons_append, Passes, after, ih, and_assoc]

/-- The worst case for `m` among the moves `l`: all others that compete with it first. -/
def Move.PassesLast (m : Move K lo hi) (f : K → Int) (l : List (Move K lo hi)) : Prop :=
  m.low (f m.src - (debits l m.src - m.amount)) ∧ m.high (f m.dst + (credits l m.dst - m.amount))

/-- Some order puts a move last among those with its source, another among those with
its target. -/
theorem Move.passesLast_of_forall (hm : m ∈ l) (h : ∀ l', l'.Perm l → Passes f l') :
    m.PassesLast f l := by
  obtain ⟨l₁, l₂, rfl⟩ := append_of_mem hm
  have hl : (l₁ ++ m :: l₂).Perm (m :: (l₁ ++ l₂)) := perm_middle
  -- the others that satisfy `p` first, then `m`, then the rest
  have horder : ∀ p : Move K lo hi → Bool,
      Passes f ((l₁ ++ l₂).filter p ++ m :: (l₁ ++ l₂).filter fun x => !p x) := by
    intro p
    apply h
    refine perm_middle.trans (List.Perm.trans ?_ hl.symm)
    exact (filter_append_perm p (l₁ ++ l₂)).cons m
  constructor
  · have hlow := ((passes_append _ _ _).mp (horder fun x => x.src = m.src)).2.1
    rw [after_apply, debits_filter, credits_eq_zero, add_zero] at hlow
    · rw [debits_perm hl, debits_cons, if_pos rfl]
      simpa using hlow
    · intro x hx
      have hsrc : x.src = m.src := by simpa using (mem_filter.mp hx).2
      exact fun hdst => x.ne (hsrc.trans hdst.symm)
  · have hhigh := ((passes_append _ _ _).mp (horder fun x => x.dst = m.dst)).2.2.1
    rw [after_apply, credits_filter, debits_eq_zero, sub_zero] at hhigh
    · rw [credits_perm hl, credits_cons, if_pos rfl]
      simpa using hhigh
    · intro x hx
      have hdst : x.dst = m.dst := by simpa using (mem_filter.mp hx).2
      exact fun hsrc => x.ne (hsrc.trans hdst.symm)

theorem after_concat (f : K → Int) (l : List (Move K lo hi)) (m : Move K lo hi) :
    after f (l ++ [m]) = m.post (after f l) := by
  funext k
  simp only [after_apply, debits, credits, map_append, sum_append, Move.post]
  simp only [map_cons, map_nil, sum_cons, sum_nil, eq_comm (a := k)]
  split <;> split <;> omega

/-- A move that its guards let through leaves the counters in range. -/
theorem Move.post_range (m : Move K lo hi) (hf : ∀ k, lo ≤ f k ∧ f k ≤ hi) (hsrc : m.low (f m.src))
    (hdst : m.high (f m.dst)) (k : K) : lo ≤ m.post f k ∧ m.post f k ≤ hi := by
  have hk := hf k
  have hamount := m.nonneg
  have hlo := m.low_range hsrc
  have hhi := m.high_range hdst
  rw [Move.post]
  by_cases hks : k = m.src
  · subst hks
    rw [if_pos rfl, if_neg m.ne]
    omega
  · by_cases hkd : k = m.dst
    · subst hkd
      rw [if_neg hks, if_pos rfl]
      omega
    · rw [if_neg hks, if_neg hkd]
      omega

/-- By induction on the moves still to come: the counters stay in range, and no guard
sees a worse value than its worst case. -/
theorem passes_of_passesLast (pre rest : List (Move K lo hi))
    (hl : (pre ++ rest).Perm l) (hf : ∀ k, lo ≤ after f pre k ∧ after f pre k ≤ hi)
    (h : ∀ m ∈ l, m.PassesLast f l) : Passes (after f pre) rest := by
  induction rest generalizing pre with
  | nil => trivial
  | cons m rest ih =>
    obtain ⟨hlow, hhigh⟩ := h m (hl.subset (by simp))
    have hpre : (pre ++ m :: rest).Perm (m :: (pre ++ rest)) := perm_middle
    have hdebits : debits l m.src = m.amount + debits pre m.src + debits rest m.src := by
      rw [← debits_perm hl, debits_perm hpre, debits_cons, if_pos rfl]
      simp [debits, add_assoc]
    have hcredits : credits l m.dst = m.amount + credits pre m.dst + credits rest m.dst := by
      rw [← credits_perm hl, credits_perm hpre, credits_cons, if_pos rfl]
      simp [credits, add_assoc]
    have hamount := m.nonneg
    have hsrc : m.low (after f pre m.src) := by
      have hlo := m.low_range hlow
      have h₁ := credits_nonneg (l := pre) (k := m.src)
      have h₂ := debits_nonneg (l := rest) (k := m.src)
      apply m.low_mono (by omega) _ (hf _).2 hlow
      rw [after_apply]
      omega
    have hdst : m.high (after f pre m.dst) := by
      have hhi := m.high_range hhigh
      have h₁ := debits_nonneg (l := pre) (k := m.dst)
      have h₂ := credits_nonneg (l := rest) (k := m.dst)
      apply m.high_anti (hf _).1 _ (by omega) hhigh
      rw [after_apply]
      omega
    refine ⟨hsrc, hdst, ?_⟩
    rw [← after_concat]
    apply ih
    · simpa using hl
    · rw [after_concat]
      exact m.post_range hf hsrc hdst

end

/-! ### Orders -/

/-- An order of the images is the image of an order. -/
theorem exists_perm_of_perm_map {α β : Type*} {g : α → β} {l : List α} {l' : List β}
    (h : l'.Perm (l.map g)) : ∃ o : List α, o.Perm l ∧ o.map g = l' := by
  have himage : List.Forall₂ (fun b a => g a = b) (l.map g) l := by
    simp [forall₂_map_left_iff, forall₂_same]
  obtain ⟨o, ho, hl⟩ := perm_comp_forall₂ h himage
  refine ⟨o, hl, ?_⟩
  rw [← forall₂_eq_eq_eq, forall₂_map_left_iff]
  exact ho.flip

/-- **Every order passes iff every move passes last.** -/
theorem passes_perm_iff {α : Type*} (g : α → Move K lo hi) (l : List α) {f : K → Int}
    (hf : ∀ k, lo ≤ f k ∧ f k ≤ hi) :
    (∀ o : List α, o.Perm l → Passes f (o.map g)) ↔ ∀ a ∈ l, (g a).PassesLast f (l.map g) := by
  constructor
  · intro h a ha
    apply Move.passesLast_of_forall (mem_map_of_mem ha)
    intro l' hl'
    obtain ⟨o, ho, rfl⟩ := exists_perm_of_perm_map hl'
    exact h o ho
  · intro h o ho
    apply passes_of_passesLast [] (o.map g) (ho.map g) hf
    simpa using h

end Moves
