/-
# LIKE patterns (pkg/fsm/eval/evaluator.go)

In a pattern `%` stands for any string and `_` for any byte (`Language`).  `matchLikePattern`
runs along the subject and the pattern with one place to come back to: the pattern behind its
last `%`, and the subject one byte further each time.

A `%` of the subject takes up a `%` of the pattern as an ordinary byte would.
`matchLikePattern_exact_iff`: all patterns are matched as they should be iff the subject has
no `%`.
-/
import Mathlib.Data.List.Basic
import Mathlib.Tactic.Common

namespace Xolu.Fsm

open List

def percent : UInt8 := 37

def underscore : UInt8 := 95

/-- The loop, with the subject from `sIdx` and the pattern from `pIdx` on.  Under `star` are the
pattern behind `starIdx` and the subject from `matchIdx` on. -/
def matchLoop (s p : List UInt8) (star : Option (List UInt8 × List UInt8)) : Bool :=
  match s with
  | [] => (p.dropWhile (· == percent)).isEmpty
  | c :: s =>
    if p.head?.any fun x => x == underscore || x == c then matchLoop s p.tail star
    else if p.head? = some percent then matchLoop (c :: s) p.tail (some (p.tail, c :: s))
    else
      match star with
      | some (q, m) => matchLoop m.tail q (some (q, m.tail))
      | none => false
termination_by (star.elim (s.length + 1) fun x => max s.length x.2.length, p.length)
decreasing_by
  all_goals rw [Prod.lex_def]
  on_goal 3 =>
    simp
    omega
  all_goals
    rcases p with - | ⟨x, p⟩
    · contradiction
    · rcases star with - | ⟨q, m⟩ <;> simp
      omega

def matchLikePattern (s pattern : List UInt8) : Bool := matchLoop s pattern none

/-- The language of a pattern. -/
def Language : List UInt8 → List UInt8 → Prop
  | [], s => s = []
  | x :: p, s =>
    if x = percent then ∃ t, t <:+ s ∧ Language p t
    else ∃ c t, s = c :: t ∧ (x = underscore ∨ x = c) ∧ Language p t

variable {s p : List UInt8} {c x : UInt8} {star : Option (List UInt8 × List UInt8)}

/-! ### Languages -/

theorem exists_suffix_iff {P : List UInt8 → Prop} :
    (∃ t, t <:+ s ∧ P t) ↔ P s ∨ ∃ t, t <:+ s.tail ∧ P t := by
  rcases s with - | ⟨c, s⟩
  · simp
  · simp only [suffix_cons_iff, tail_cons, or_and_right, exists_or, exists_eq_left]

theorem language_percent : Language (percent :: p) s ↔ ∃ t, t <:+ s ∧ Language p t := by
  rw [Language, if_pos rfl]

theorem language_cons (hx : x ≠ percent) :
    Language (x :: p) (c :: s) ↔ (x = underscore ∨ x = c) ∧ Language p s := by
  rw [Language, if_neg hx]
  simp

theorem language_nil : Language p [] ↔ (p.dropWhile (· == percent)).isEmpty := by
  induction p with
  | nil => simp [Language]
  | cons x p ih =>
    by_cases hx : x = percent
    · rw [hx, language_percent, dropWhile_cons_of_pos (by simp), ← ih]
      simp
    · rw [dropWhile_cons_of_neg (by simpa using hx), Language, if_neg hx]
      simp

theorem not_language (hx : ¬ p.head?.any fun x => x == underscore || x == c)
    (hp : p.head? ≠ some percent) : ¬ Language p (c :: s) := by
  rcases p with - | ⟨x, p⟩
  · exact cons_ne_nil c s
  · rw [language_cons fun h => hp (congrArg some h)]
    simp_all

/-! ### The loop -/

/-- Both go on. -/
theorem matchLoop_cons (h : x = underscore ∨ x = c) :
    matchLoop (c :: s) (x :: p) star = matchLoop s p star := by
  rw [matchLoop.eq_def]
  exact if_pos (by simpa using h)

/-- There is a match from a later byte of the subject on. -/
def Later : Option (List UInt8 × List UInt8) → Prop
  | some (q, m) => ∃ t, t <:+ m.tail ∧ Language q t
  | none => False

/-- The subject has no `%`, and what would be found later can be found ahead. -/
structure Abreast (s p : List UInt8) (star : Option (List UInt8 × List UInt8)) : Prop where
  plain : percent ∉ s
  behind : ∀ x ∈ star, percent ∉ x.2
  ahead : Later star → ∃ t, t <:+ s ∧ Language p t

theorem Abreast.start (h : percent ∉ s) : Abreast s p (some (p, s)) where
  plain := h
  behind _ hx := Option.some.inj hx ▸ h
  ahead := fun ⟨t, ht, hp⟩ => ⟨t, ht.trans (tail_suffix s), hp⟩

theorem Abreast.next (h : Abreast (c :: s) (x :: p) star) (hx : x ≠ percent) :
    Abreast s p star where
  plain := not_mem_of_not_mem_cons h.plain
  behind := h.behind
  ahead hlater := by
    obtain ⟨t, ht, hp⟩ := h.ahead hlater
    rw [Language, if_neg hx] at hp
    obtain ⟨d, t, rfl, -, hp⟩ := hp
    refine ⟨t, ?_, hp⟩
    rcases suffix_cons_iff.mp ht with heq | ht
    · cases heq
      exact suffix_rfl
    · exact (suffix_cons d t).trans ht

theorem matchLoop_iff (h : Abreast s p star) :
    matchLoop s p star = true ↔ Language p s ∨ Later star := by
  induction s, p, star using matchLoop.induct with
  | case1 p star =>
    rw [matchLoop, ← language_nil, iff_self_or]
    intro hlater
    obtain ⟨t, ht, hp⟩ := h.ahead hlater
    rwa [suffix_nil.mp ht] at hp
  | case2 p star c s hx ih =>
    rcases p with - | ⟨x, p⟩
    · cases hx
    replace hx : x = underscore ∨ x = c := by simpa using hx
    have hne : x ≠ percent := by
      rintro rfl
      rcases hx with hx | rfl
      · cases hx
      · exact h.plain mem_cons_self
    rw [matchLoop_cons hx, language_cons hne, and_iff_right hx]
    exact ih (h.next hne)
  | case3 p star c s hx hp ih =>
    unfold matchLoop
    rw [if_neg hx, if_pos hp, ih (.start h.plain)]
    obtain ⟨p, rfl⟩ := head?_eq_some_iff.mp hp
    refine exists_suffix_iff.symm.trans (iff_self_or.mpr fun hlater => ?_)
    obtain ⟨w, hw, hp⟩ := h.ahead hlater
    obtain ⟨t, ht, hp⟩ := language_percent.mp hp
    exact ⟨t, ht.trans hw, hp⟩
  | case4 p c s hx hp q m ih =>
    unfold matchLoop
    rw [if_neg hx, if_neg hp, or_iff_right (not_language hx hp)]
    rw [ih (.start fun hm => h.behind (q, m) rfl (mem_of_mem_tail hm))]
    exact exists_suffix_iff.symm
  | case5 p c s hx hp =>
    unfold matchLoop
    rw [if_neg hx, if_neg hp]
    exact iff_of_false Bool.noConfusion (not_or.mpr ⟨not_language hx hp, id⟩)

/-! ### Subjects with a `%` -/

/-- As many `_` as bytes match, one more does not. -/
theorem underscores_spec (s : List UInt8) : Language (replicate s.length underscore) s ∧
    matchLoop s (replicate (s.length + 1) underscore) none = false := by
  induction s with
  | nil => exact ⟨rfl, by rw [matchLoop]; rfl⟩
  | cons c s ih =>
    exact ⟨(language_cons (by decide)).mpr ⟨.inl rfl, ih.1⟩, (matchLoop_cons (.inl rfl)).trans ih.2⟩

theorem exists_missed (h : percent ∈ s) : ∃ p, Language p s ∧ matchLoop s p none = false := by
  induction s with
  | nil => cases h
  | cons c s ih =>
    by_cases hc : c = percent
    · -- the `%` of the pattern is gone before the bytes it should leave to the `_`
      subst hc
      refine ⟨percent :: replicate (s.length + 1) underscore, ?_, ?_⟩
      · exact language_percent.mpr ⟨_, suffix_rfl, (underscores_spec (percent :: s)).1⟩
      · exact (matchLoop_cons (.inr rfl)).trans (underscores_spec s).2
    · obtain ⟨p, hp, hmiss⟩ := ih (mem_of_ne_of_mem (Ne.symm hc) h)
      refine ⟨underscore :: p, ?_, (matchLoop_cons (.inl rfl)).trans hmiss⟩
      exact (language_cons (by decide)).mpr ⟨.inl rfl, hp⟩

/-- **LIKE is exact** for a subject, over all patterns, iff it has no `%`. -/
theorem matchLikePattern_exact_iff (s : List UInt8) :
    (∀ p, matchLikePattern s p = true ↔ Language p s) ↔ percent ∉ s := by
  constructor
  · intro h hs
    obtain ⟨p, hp, hmiss⟩ := exists_missed hs
    exact Bool.noConfusion (hmiss.symm.trans ((h p).mpr hp))
  · intro hs p
    rw [matchLikePattern, matchLoop_iff ⟨hs, by simp, False.elim⟩]
    exact or_iff_left id

/-- The `%` of the subject takes up the `%` of the pattern, and nothing is left for the `_`. -/
theorem percent_not_like : Language [percent, underscore] [percent] ∧
    matchLikePattern [percent] [percent, underscore] = false := by
  refine ⟨language_percent.mpr ⟨[percent], suffix_rfl, (underscores_spec [percent]).1⟩, ?_⟩
  rw [matchLikePattern, matchLoop_cons (.inr rfl), matchLoop]
  rfl

end Xolu.Fsm
