/-
# Named sequences

`handleSeqDefine` checks a definition and stores the sequence one increment before its
start; `SeqIncrementTx` adds the increment in 64-bit arithmetic, compares the sum with
the bounds that are given, and at a bound either answers that there is no row or, for a
cyclic sequence, goes on from the other end.  A missing other end is 1 above and 0 below.

The addition is not checked.  A sequence without an upper bound goes on from the most
negative integer, and a bound only stops it if the wrapped sum is beyond the other one.
`Sequence.Safe` is what a definition needs besides the checks of the handler.
-/
import Xolu.Lib.Num64
import Mathlib.Tactic.Ring

namespace Xolu.Fsm

open Num64 Option

/-- A request to define a sequence; the decoder read 64-bit integers. -/
structure SeqRequest where
  name : String
  start : Option Int
  incrementBy : Option Int
  minVal : Option Int
  maxVal : Option Int
  cycle : Bool
  ranged : ∀ v ∈ [start, incrementBy, minVal, maxVal], ∀ n ∈ v, InRange n

/-- A row of the table `sequences`. -/
structure Sequence where
  current : Int
  start : Int
  inc : Int
  minVal : Option Int
  maxVal : Option Int
  cycle : Bool
  deriving DecidableEq, Repr

inductive SeqCode where
  | metaInvalidKey | genInvalidConfig | genNameExists
  deriving DecidableEq, Repr

/-- A match of `seqNameRe`. -/
def validSeqName (name : String) : Bool :=
  decide (1 ≤ name.length ∧ name.length ≤ 64) && name.toList.all fun c => c.isAlphanum || c == '_'

/-- `taken` says that a generator of the name exists. -/
def handleSeqDefine (taken : Bool) (req : SeqRequest) : Except (SeqCode × String) Sequence :=
  let start := req.start.getD 1
  let inc := req.incrementBy.getD 1
  if !validSeqName req.name then
    .error (.metaInvalidKey, "name must match [a-zA-Z0-9_]\x7b1,64\x7d")
  else if inc = 0 then .error (.genInvalidConfig, "increment_by must not be zero")
  else if ∃ lo ∈ req.minVal, ∃ hi ∈ req.maxVal, hi < lo then
    .error (.genInvalidConfig, "min_val must be <= max_val")
  else if ∃ lo ∈ req.minVal, start < lo then
    .error (.genInvalidConfig, "start must be >= min_val")
  else if ∃ hi ∈ req.maxVal, hi < start then
    .error (.genInvalidConfig, "start must be <= max_val")
  else if taken then .error (.genNameExists, "a generator with that name already exists")
  else .ok ⟨wrap (start - inc), start, inc, req.minVal, req.maxVal, req.cycle⟩

namespace Sequence

variable (s : Sequence)

/-- The lower bound, looked at last. -/
def checkMin (v : Int) : Option Int :=
  if ∃ lo ∈ s.minVal, v < lo then if s.cycle then some (s.maxVal.getD 0) else none
  else some v

/-- The next value; none stands for `sql.ErrNoRows`. -/
def next : Option Int :=
  let v := wrap (s.current + s.inc)
  if ∃ hi ∈ s.maxVal, hi < v then if s.cycle then s.checkMin (s.minVal.getD 1) else none
  else s.checkMin v

/-- `SeqIncrementTx`, for a sequence that exists. -/
def increment : Option (Int × Sequence) := s.next.map fun v => (v, { s with current := v })

/-- The row after `n` calls; a call that fails leaves it alone. -/
def after (s : Sequence) : Nat → Sequence
  | 0 => s
  | n + 1 => ((s.after n).increment.map Prod.snd).getD (s.after n)

/-- What call number `n` answers, counted from 0. -/
def draw (n : Nat) : Option Int := (s.after n).next

/-- The value is between the bounds that are given. -/
def Fits (v : Int) : Prop := (∀ lo ∈ s.minVal, lo ≤ v) ∧ ∀ hi ∈ s.maxVal, v ≤ hi
deriving Decidable

/-- The values are in range; without cycle they are the multiples of the increment from
the start on, until all calls fail; with cycle no call fails. -/
structure StaysInRange (s : Sequence) : Prop where
  fits : ∀ n, ∀ v ∈ s.draw n, s.Fits v
  plain : s.cycle = false → ∃ k : Nat,
    (∀ n < k, s.draw n = some (s.start + n * s.inc)) ∧ ∀ n ≥ k, s.draw n = none
  cycles : s.cycle = true → ∀ n, (s.draw n).isSome = true

variable (s : Sequence)

/-- Where a cyclic sequence goes on is in range. -/
def RestartFits : Prop :=
  (s.minVal = none → ∀ hi ∈ s.maxVal, 1 ≤ hi) ∧ (s.maxVal = none → ∀ lo ∈ s.minVal, lo ≤ 0)

/-- The sequence goes back and forth between 0 and the least integer. -/
def Alternates : Prop :=
  s.minVal = none ∧ s.maxVal = some 0 ∧ s.inc = -2 ^ 63 ∧ (s.start = 0 ∨ s.start = -2 ^ 63)

/-- With cycle, the places to go on are in range.  Without, the sum that first leaves the
64-bit range, if the bounds let the sequence get there, wraps to a value out of bounds. -/
def Safe : Prop :=
  if s.cycle then s.RestartFits ∨ s.Alternates
  else ∀ n : Nat, s.Fits (s.start + n * s.inc) → InRange (s.start + n * s.inc) →
    ¬ InRange (s.start + n * s.inc + s.inc) → ¬ s.Fits (wrap (s.start + n * s.inc + s.inc))

/-- What the handler has checked. -/
structure Accepted (s : Sequence) : Prop where
  start : InRange s.start
  inc : InRange s.inc
  moves : s.inc ≠ 0
  fits : s.Fits s.start
  current : s.current = wrap (s.start - s.inc)

theorem accepted_of_define {taken : Bool} {req : SeqRequest} {s : Sequence}
    (h : handleSeqDefine taken req = .ok s) : s.Accepted := by
  have hr := req.ranged
  simp only [List.forall_mem_cons] at hr
  obtain ⟨hstart, hinc, -⟩ := hr
  have hone : ∀ v : Option Int, (∀ n ∈ v, InRange n) → InRange (v.getD 1) := by
    rintro (_ | n) hv
    · exact ⟨by decide, by decide⟩
    · exact hv n rfl
  unfold handleSeqDefine at h
  dsimp only at h
  split_ifs at h with _ hzero _ hlo hhi
  obtain rfl := Except.ok.inj h
  push Not at hlo hhi
  exact ⟨hone _ hstart, hone _ hinc, hzero, ⟨hlo, hhi⟩, rfl⟩

theorem next_eq : s.next =
    if s.Fits (wrap (s.current + s.inc)) then some (wrap (s.current + s.inc))
    else if s.cycle = false then none
    else if ∃ hi ∈ s.maxVal, hi < wrap (s.current + s.inc) then some (s.minVal.getD 1)
    else some (s.maxVal.getD 0) := by
  obtain ⟨cur, start, inc, lo, hi, cycle⟩ := s
  unfold next checkMin Fits
  rcases lo with _ | lo <;> rcases hi with _ | hi <;> cases cycle <;> simp
  all_goals split_ifs <;> first | rfl | omega

section Run

variable {s : Sequence}

theorem after_succ (n : Nat) :
    s.after (n + 1) = { s.after n with current := (s.draw n).getD (s.after n).current } := by
  rw [after, increment, draw]
  cases (s.after n).next <;> rfl

/-- Only the current value changes. -/
theorem after_eq (n : Nat) : s.after n = { s with current := (s.after n).current } := by
  induction n with
  | zero => rfl
  | succ n ih => rw [after_succ, ih]

theorem draw_eq (n : Nat) : s.draw n = { s with current := (s.after n).current }.next := by
  rw [draw, ← after_eq]

theorem draw_plain (hc : s.cycle = false) (n : Nat) : s.draw n =
    if s.Fits (wrap ((s.after n).current + s.inc)) then some (wrap ((s.after n).current + s.inc))
    else none := by
  rw [draw_eq, next_eq]
  rw [if_pos hc]
  rfl

/-- The values of the sequence until it meets a bound. -/
abbrev regular (s : Sequence) (n : Nat) : Int := s.start + n * s.inc

theorem regular_succ (n : Nat) : s.regular (n + 1) = s.regular n + s.inc := by
  rw [regular, regular, Nat.cast_succ, add_mul, one_mul, add_assoc]

variable {n : Nat}

/-- As long as the values are regular they are drawn. -/
theorem after_regular (h : s.Accepted)
    (hreg : ∀ k < n, InRange (s.regular k) ∧ s.Fits (s.regular k)) :
    wrap ((s.after n).current + s.inc) = wrap (s.regular n) ∧
      ∀ k < n, s.draw k = some (s.regular k) := by
  induction n with
  | zero =>
    rw [after, h.current, wrap_add_wrap_left]
    simp [regular]
  | succ n ih =>
    obtain ⟨hwrap, hdraw⟩ := ih fun k hk => hreg k (by omega)
    obtain ⟨hin, hfits⟩ := hreg n (by omega)
    have hn : s.draw n = some (s.regular n) := by
      rw [draw_eq, next_eq]
      rw [hwrap, wrap_of_inRange hin]
      exact if_pos hfits
    constructor
    · rw [after_succ, hn, regular_succ]
      rfl
    · intro k hk
      rcases Nat.lt_succ_iff_lt_or_eq.mp hk with hk | rfl
      exacts [hdraw k hk, hn]

/-- The first value that is not regular, and the values before it. -/
theorem exists_irregular (h : s.Accepted) : ∃ n, (∀ k ≤ n, InRange (s.regular k) ∧
    s.Fits (s.regular k)) ∧ ¬ (InRange (s.regular (n + 1)) ∧ s.Fits (s.regular (n + 1))) ∧
    wrap ((s.after (n + 1)).current + s.inc) = wrap (s.regular n + s.inc) := by
  have hex : ∃ n, ¬ (InRange (s.regular n) ∧ s.Fits (s.regular n)) := by
    refine ⟨2 ^ 64, fun hn => ?_⟩
    have hs := h.start
    have hm := h.moves
    unfold InRange regular at *
    omega
  obtain ⟨n, hn⟩ : ∃ n, Nat.find hex = n + 1 := by
    refine Nat.exists_eq_succ_of_ne_zero fun hz => Nat.find_spec hex ?_
    rw [hz]
    simpa [regular] using ⟨h.start, h.fits⟩
  have hreg : ∀ k < n + 1, InRange (s.regular k) ∧ s.Fits (s.regular k) := fun k hk =>
    not_not.mp (Nat.find_min hex (hn ▸ hk))
  refine ⟨n, fun k hk => hreg k (by omega), hn ▸ Nat.find_spec hex, ?_⟩
  rw [(after_regular h hreg).1, regular_succ]

/-- Between two regular values all are. -/
theorem regular_of_le (h : s.Accepted) (hin : InRange (s.regular n)) (hfits : s.Fits (s.regular n))
    {k : Nat} (hk : k ≤ n) : InRange (s.regular k) ∧ s.Fits (s.regular k) := by
  have hs := h.start
  obtain ⟨hlo, hhi⟩ := h.fits
  have hbetween : s.start ≤ s.regular k ∧ s.regular k ≤ s.regular n ∨
      s.regular n ≤ s.regular k ∧ s.regular k ≤ s.start := by
    have hk' : (k : Int) ≤ n := by exact_mod_cast hk
    rcases le_total 0 s.inc with hi | hi
    · exact .inl ⟨le_add_of_nonneg_right (by positivity),
        by simpa using mul_le_mul_of_nonneg_right hk' hi⟩
    · refine .inr ⟨by simpa using mul_le_mul_of_nonpos_right hk' hi, ?_⟩
      simpa using mul_nonpos_of_nonneg_of_nonpos (Int.natCast_nonneg k) hi
  refine ⟨?_, fun lo hl => ?_, fun hi hh => ?_⟩
  · unfold InRange at *
    omega
  · have h₁ := hlo lo hl
    have h₂ := hfits.1 lo hl
    omega
  · have h₁ := hhi hi hh
    have h₂ := hfits.2 hi hh
    omega

/-- Without cycle everything turns on the sum after the last regular value. -/
theorem plain_iff (h : s.Accepted) (hc : s.cycle = false) : s.StaysInRange ↔ s.Safe := by
  obtain ⟨n, hreg, hnot, hwrap⟩ := exists_irregular h
  have hdraw := (after_regular h fun k hk => hreg k (Nat.lt_succ_iff.mp hk)).2
  have hlast : s.draw (n + 1) = if s.Fits (wrap (s.regular n + s.inc)) then
      some (wrap (s.regular n + s.inc)) else none := by
    rw [draw_plain hc, hwrap]
  -- the condition speaks of the same sum, if that sum wraps
  have hsafe : s.Safe ↔ ¬ s.Fits (wrap (s.regular n + s.inc)) := by
    unfold Safe
    rw [hc]
    constructor
    · intro hsafe hfits
      by_cases hin : InRange (s.regular n + s.inc)
      · rw [wrap_of_inRange hin] at hfits
        exact hnot (by rw [regular_succ]; exact ⟨hin, hfits⟩)
      · exact hsafe n (hreg n le_rfl).2 (hreg n le_rfl).1 hin hfits
    · intro hfits m hm hin hout
      obtain rfl : m = n := by
        refine le_antisymm (not_lt.mp fun hlt => hnot ?_) (not_lt.mp fun hlt => hout ?_)
        · exact regular_of_le h hin hm hlt
        · rw [← regular_succ]
          exact (hreg (m + 1) hlt).1
      exact hfits
  rw [hsafe]
  constructor
  · intro hs hfits
    rw [if_pos hfits] at hlast
    obtain ⟨k, hlow, hhigh⟩ := hs.plain hc
    rcases lt_or_ge (n + 1) k with hk | hk
    · have heq : wrap (s.regular n + s.inc) = s.regular (n + 1) :=
        some.inj (hlast.symm.trans (hlow _ hk))
      exact hnot (heq ▸ ⟨wrap_inRange _, hfits⟩)
    · exact absurd (hlast.symm.trans (hhigh _ hk)) (by simp)
  · intro hfits
    rw [if_neg hfits] at hlast
    have hend : ∀ m, s.draw (n + 1 + m) = none := by
      intro m
      induction m with
      | zero => exact hlast
      | succ m ih => rwa [draw_eq, ← Nat.add_assoc, after_succ, ih, getD_none, ← draw_eq]
    refine ⟨fun m v hv => ?_, fun _ => ⟨n + 1, hdraw, fun m hm => ?_⟩, fun hc' => ?_⟩
    · rw [draw_plain hc] at hv
      split_ifs at hv with hv'
      · exact some.inj hv ▸ hv'
      · cases hv
    · obtain ⟨m, rfl⟩ := Nat.exists_eq_add_of_le hm
      exact hend m
    · rw [hc] at hc'
      cases hc'

theorem draw_cycle (hc : s.cycle = true) (n : Nat) : s.draw n = some
    (if s.Fits (wrap ((s.after n).current + s.inc)) then wrap ((s.after n).current + s.inc)
    else if ∃ hi ∈ s.maxVal, hi < wrap ((s.after n).current + s.inc) then s.minVal.getD 1
    else s.maxVal.getD 0) := by
  rw [draw_eq, next_eq]
  have hne : ¬ s.cycle = false := by simp [hc]
  rw [apply_ite some, apply_ite some]
  simp only [hne]
  rfl

theorem fits_of_restart (h : s.Accepted) (hc : s.cycle = true) (hr : s.RestartFits)
    {v : Int} (hv : v ∈ s.draw n) : s.Fits v := by
  rw [draw_cycle hc, mem_some_iff] at hv
  subst hv
  have hf := h.fits
  unfold RestartFits at hr
  split_ifs with hw hbig
  · exact hw
  all_goals
    unfold Fits at hf hw ⊢
    rcases hlo : s.minVal with _ | lo <;> rcases hhi : s.maxVal with _ | hi <;>
      simp [hlo, hhi] at hf hr hw hbig ⊢ <;> omega

theorem fits_of_alternates (h : s.Accepted) (hc : s.cycle = true) (ha : s.Alternates) (n : Nat) :
    (wrap ((s.after n).current + s.inc) = 0 ∨
      wrap ((s.after n).current + s.inc) = -2 ^ 63) ∧ ∀ v ∈ s.draw n, s.Fits v := by
  obtain ⟨hlo, hhi, hinc, hstart⟩ := ha
  have hfits : ∀ w : Int, w = 0 ∨ w = -2 ^ 63 → s.Fits w := by
    intro w hw
    simp only [Fits, hlo, hhi, mem_some_iff]
    exact ⟨by simp, by omega⟩
  have hcur : wrap ((s.after n).current + s.inc) = 0 ∨
      wrap ((s.after n).current + s.inc) = -2 ^ 63 := by
    induction n with
    | zero =>
      rw [after, h.current, wrap_add_wrap_left]
      simp only [wrap]
      omega
    | succ n ih =>
      rw [after_succ, draw_cycle hc, if_pos (hfits _ ih)]
      simp only [getD_some, hinc] at ih ⊢
      rcases ih with ih | ih <;> rw [ih] <;> decide
  refine ⟨hcur, fun v hv => ?_⟩
  rw [draw_cycle hc, if_pos (hfits _ hcur), mem_some_iff] at hv
  exact hv ▸ hfits _ hcur

/-- A cyclic sequence whose values are all in range goes on in range, or it never gets to
an end that is not given. -/
theorem safe_of_fits (h : s.Accepted) (hc : s.cycle = true)
    (hfits : ∀ n, ∀ v ∈ s.draw n, s.Fits v) : s.RestartFits ∨ s.Alternates := by
  obtain ⟨n, hreg, hnot, hwrap⟩ := exists_irregular h
  have hv := hfits (n + 1) _ (draw_cycle hc _)
  rw [hwrap] at hv
  have hlast := hreg n le_rfl
  have hinc := h.inc
  have hf := h.fits
  have hn : s.regular n = s.start + n * s.inc := rfl
  rw [regular_succ] at hnot
  generalize s.regular n = r at *
  unfold RestartFits Alternates
  unfold Fits InRange at *
  rcases hlo : s.minVal with _ | lo <;> rcases hhi : s.maxVal with _ | hi <;>
    simp [hlo, hhi] at hv hlast hf hnot ⊢
  · -- no lower bound: above the upper one the sequence goes on from 1
    by_contra hcon
    simp only [not_or, not_le, not_and] at hcon
    by_cases hbig : hi < wrap (r + s.inc)
    · rw [if_neg (by omega), if_pos hbig] at hv
      omega
    · have hinc' : s.inc = -2 ^ 63 := by
        simp only [wrap] at hbig
        omega
      refine absurd (hcon.2 ?_ hinc') ?_
      all_goals simp only [wrap, hinc'] at *; omega
  · by_contra hcon
    by_cases hsmall : lo ≤ wrap (r + s.inc)
    · simp only [wrap] at hsmall
      omega
    · rw [if_neg hsmall] at hv
      omega

theorem cycle_iff (h : s.Accepted) (hc : s.cycle = true) : s.StaysInRange ↔ s.Safe := by
  unfold Safe
  rw [if_pos hc]
  refine ⟨fun hs => safe_of_fits h hc hs.fits, fun hs => ⟨fun n v hv => ?_, ?_, fun _ n => ?_⟩⟩
  · rcases hs with hr | ha
    · exact fits_of_restart h hc hr hv
    · exact (fits_of_alternates h hc ha n).2 v hv
  · simp [hc]
  · rw [draw_cycle hc]
    rfl

end Run

end Sequence

open Sequence in
/-- **Sequences stay in their range exactly if their ends are safe**: the values of every
sequence that `handleSeqDefine` accepts are as declared if and only if a cyclic sequence
goes on in range, and any other is stopped by a bound before, or when, it wraps around. -/
theorem staysInRange_iff_safe (taken : Bool) (req : SeqRequest) (s : Sequence)
    (h : handleSeqDefine taken req = .ok s) : s.StaysInRange ↔ s.Safe := by
  cases hc : s.cycle with
  | false => exact plain_iff (accepted_of_define h) hc
  | true => exact cycle_iff (accepted_of_define h) hc

/-- A request for an ascending sequence from 1 by 1. -/
def countTo (maxVal : Int) (hmax : InRange maxVal) : SeqRequest where
  name := "orders"
  start := none
  incrementBy := none
  minVal := none
  maxVal := some maxVal
  cycle := true
  ranged := by simpa using hmax

/-- The sequence that cycles through 1, 2, 3. -/
theorem countTo_three_stays : (Sequence.mk 0 1 1 none (some 3) true).StaysInRange :=
  (staysInRange_iff_safe false (countTo 3 (by decide)) _ rfl).mpr (.inl ⟨by simp, by simp⟩)

/-- A countdown to 5 that cycles goes on from 0, below its lower bound; a plain sequence
near the top of the 64-bit range goes on from the bottom. -/
theorem ends_leave_range :
    (∃ s, handleSeqDefine false ⟨"ticket", some 6, some (-1), some 5, none, true, by decide⟩ =
        .ok s ∧ s.draw 2 = some 0 ∧ ¬ s.StaysInRange) ∧
    ∃ s, handleSeqDefine false
        ⟨"serial", some 9223372036854775806, none, none, none, false, by decide⟩ = .ok s ∧
      s.draw 2 = some (-2 ^ 63) ∧ ¬ s.StaysInRange := by
  constructor
  · refine ⟨_, rfl, by decide, fun hs => ?_⟩
    exact absurd (hs.fits 2 0 (by decide)) (by decide)
  · have hwrapped : (Sequence.mk 9223372036854775805 9223372036854775806 1 none none false).draw 2 =
        some (-2 ^ 63) := by decide
    refine ⟨_, rfl, hwrapped, fun hs => ?_⟩
    obtain ⟨k, hregular, hend⟩ := hs.plain rfl
    rcases lt_or_ge 2 k with hk | hk
    · exact absurd (hwrapped.symm.trans (hregular 2 hk)) (by decide)
    · exact absurd (hwrapped.symm.trans (hend 2 hk)) (by decide)

end Xolu.Fsm
