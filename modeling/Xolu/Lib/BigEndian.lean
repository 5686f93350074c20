/-
# Big-endian numbers and the order of byte strings

Numbers in a fixed number of bytes, the most significant first, and byte strings in their
lexicographic order, in which a prefix comes first.  The encoding keeps the order of the numbers,
and strings whose first parts have one length are compared part by part.

`increment` is the least string of the same length above a given one.  As an upper bound it admits
a string if and only if its first bytes do not exceed the given one (`all_increment_iff`).
-/
import Mathlib.Algebra.Order.Ring.Nat
import Mathlib.Data.List.Lex
import Mathlib.Order.Fin.Basic

namespace BigEndian

open List Nat
/-- A byte. -/
abbrev Byte := Fin 256

/-- A number in so many bytes; what does not fit is cut off. -/
def encode : Nat → Nat → List Byte
  | 0, _ => []
  | n + 1, v => Fin.ofNat 256 (v / 256 ^ n) :: encode n v

/-- The number that bytes stand for. -/
def decode (bs : List Byte) : Nat := bs.foldl (fun (v : Nat) (b : Byte) => v * 256 + b) 0

/-- The next byte string of the same length, if there is one. -/
def increment : List Byte → Option (List Byte)
  | [] => none
  | b :: bs =>
    match increment bs with
    | some bs' => some (b :: bs')
    -- the carry: all bytes behind were 255
    | none => if b = Fin.last 255 then none else some ((b + 1) :: replicate bs.length 0)

variable {n v w : Nat} {a b c d : List Byte}

/-! ### Numbers -/

@[simp] theorem length_encode (n v : Nat) : (encode n v).length = n := by
  induction n with
  | zero => rfl
  | succ n ih => rw [encode, length_cons, ih]

theorem foldl_encode (n v acc : Nat) :
    (encode n v).foldl (fun (v : Nat) (b : Byte) => v * 256 + b) acc =
      acc * 256 ^ n + v % 256 ^ n := by
  induction n generalizing acc with
  | zero => simp [encode, mod_one]
  | succ n ih =>
    rw [encode, foldl_cons, ih, mod_pow_succ, Fin.val_ofNat, add_mul, pow_succ',
      mul_assoc, mul_comm (256 ^ n), add_assoc, add_comm (v % 256 ^ n)]

@[simp] theorem decode_encode (n v : Nat) : decode (encode n v) = v % 256 ^ n := by
  rw [decode, foldl_encode, zero_mul, zero_add]

theorem encode_inj (hv : v < 256 ^ n) (hw : w < 256 ^ n) : encode n v = encode n w ↔ v = w := by
  refine ⟨fun h => ?_, fun h => h ▸ rfl⟩
  have hdecode := congrArg decode h
  rwa [decode_encode, decode_encode, mod_eq_of_lt hv, mod_eq_of_lt hw] at hdecode

/-- Numbers in two digits are compared digit by digit. -/
theorem add_mul_lt_iff {M x y x' y' : Nat} (hx : x < M) (hy : y < M) :
    x + M * x' < y + M * y' ↔ x' < y' ∨ x' = y' ∧ x < y := by
  rcases lt_trichotomy x' y' with h | rfl | h
  · have hle : M * (x' + 1) ≤ M * y' := mul_le_mul_left M h
    rw [mul_add, mul_one] at hle
    exact iff_of_true (by omega) (.inl h)
  · omega
  · have hle : M * (y' + 1) ≤ M * x' := mul_le_mul_left M h
    rw [mul_add, mul_one] at hle
    exact iff_of_false (by omega) (by omega)

/-- The encoding keeps the order. -/
theorem encode_lt_encode (n v w : Nat) : encode n v < encode n w ↔ v % 256 ^ n < w % 256 ^ n := by
  induction n with
  | zero => simp [encode, mod_one]
  | succ n ih =>
    have hpos : 0 < 256 ^ n := Nat.pow_pos (by decide)
    rw [encode, encode, cons_lt_cons_iff, ih, mod_pow_succ, mod_pow_succ,
      add_mul_lt_iff (mod_lt v hpos) (mod_lt w hpos), Fin.lt_def, Fin.ext_iff,
      Fin.val_ofNat, Fin.val_ofNat]

theorem encode_lt_encode_iff (hv : v < 256 ^ n) (hw : w < 256 ^ n) :
    encode n v < encode n w ↔ v < w := by
  rw [encode_lt_encode, mod_eq_of_lt hv, mod_eq_of_lt hw]

/-! ### The order of byte strings -/

variable {α : Type*}

/-- Strings whose first parts have one length are compared part by part. -/
theorem append_lt_append_iff [LT α] {a b c d : List α} (h : a.length = b.length) :
    a ++ c < b ++ d ↔ a < b ∨ a = b ∧ c < d := by
  induction a generalizing b with
  | nil =>
    obtain rfl := length_eq_zero_iff.mp h.symm
    simp
  | cons x a ih =>
    cases b with
    | nil => cases h
    | cons y b =>
      rw [length_cons, length_cons, add_right_cancel_iff] at h
      rw [cons_append, cons_append, cons_lt_cons_iff, cons_lt_cons_iff, ih h, cons.injEq]
      tauto

/-- No string of at least that length comes before the first one. -/
theorem not_lt_replicate [LT α] {a : List α} {z : α} (hz : ∀ x, ¬ x < z)
    (h : n ≤ a.length) : ¬ a < replicate n z := by
  induction n generalizing a with
  | zero => exact not_lt_nil a
  | succ n ih =>
    cases a with
    | nil => cases h
    | cons x a =>
      rw [replicate_succ, cons_lt_cons_iff]
      rintro (hx | ⟨-, ha⟩)
      · exact hz x hx
      · exact ih (le_of_succ_le_succ h) ha

/-- And none of at most that length after the last one. -/
theorem not_replicate_lt [LT α] {a : List α} {z : α} (hz : ∀ x, ¬ z < x)
    (h : a.length ≤ n) : ¬ replicate n z < a := by
  induction a generalizing n with
  | nil => exact not_lt_nil _
  | cons x a ih =>
    cases n with
    | zero => cases h
    | succ n =>
      rw [replicate_succ, cons_lt_cons_iff]
      rintro (hx | ⟨-, ha⟩)
      · exact hz x hx
      · exact ih (le_of_succ_le_succ h) ha

/-- **The next string as a bound**: a string is below it if its first bytes are not above the given
one.  Without a next string there is no bound. -/
theorem all_increment_iff (hc : a.length ≤ c.length) :
    (increment a).all (fun b => decide (c < b)) ↔ ¬ a < c.take a.length := by
  induction a generalizing c with
  | nil => simp [increment]
  | cons x a ih =>
    cases c with
    | nil => cases hc
    | cons y c =>
      replace hc : a.length ≤ c.length := le_of_succ_le_succ hc
      replace ih := ih hc
      rw [length_cons, take_succ_cons, cons_lt_cons_iff, increment]
      rcases hnext : increment a with - | b
      · -- a carry: no string of that length exceeds the rest of `a`, and none precedes the zeros
        have hlast : ¬ a < c.take a.length := ih.mp (by rw [hnext]; rfl)
        have hzeros := not_lt_replicate Fin.not_lt_zero hc
        split_ifs with hx
        · simp [hlast, hx ▸ Fin.le_last y]
        · have hsucc : y < x + 1 ↔ ¬ x < y := by
            have hne : (x : Nat) ≠ 255 := fun e => hx (Fin.ext e)
            have hval : ((x + 1 : Byte) : Nat) = x + 1 := by
              omega
            rw [Fin.lt_def, Fin.lt_def, hval]
            omega
          simp [cons_lt_cons_iff, hlast, hzeros, hsucc]
      · -- no carry: the first bytes decide, and then the rest
        rw [hnext, Option.all_some, decide_eq_true_eq] at ih
        rw [Option.all_some, decide_eq_true_eq, cons_lt_cons_iff, ih]
        rcases lt_trichotomy x y with hxy | rfl | hxy
        · simp [hxy, hxy.not_gt, hxy.ne']
        · simp
        · simp [hxy, hxy.not_gt, hxy.ne']

theorem length_increment (h : increment a = some b) : b.length = a.length := by
  induction a generalizing b with
  | nil => cases h
  | cons x a ih =>
    rw [increment] at h
    split at h
    · next a' ha' =>
      cases h
      rw [length_cons, length_cons, ih ha']
    · split_ifs at h
      cases h
      rw [length_cons, length_cons, length_replicate]

theorem increment_eq_none_iff : increment a = none ↔ ∀ x ∈ a, x = Fin.last 255 := by
  induction a with
  | nil => simp [increment]
  | cons x a ih =>
    rw [increment, forall_mem_cons, ← ih]
    rcases increment a with - | a'
    · simp
    · simp

/-- The next string of two parts: that of the second part, or a carry. -/
theorem increment_append (a b : List Byte) :
    increment (a ++ b) =
      match increment b with
      | some b' => some (a ++ b')
      | none => (increment a).map (· ++ replicate b.length 0) := by
  induction a with
  | nil =>
    rw [nil_append]
    rcases increment b with - | b'
    · rfl
    · rfl
  | cons x a ih =>
    rw [cons_append, increment, ih]
    rcases increment b with - | b'
    · rw [increment]
      rcases increment a with - | a'
      · split_ifs with hx
        · rfl
        · simp
      · rfl
    · rfl

/-- The next string of a number is that of the next number; after the last one, zeros follow. -/
theorem increment_encode (n v : Nat) :
    (v % 256 ^ n + 1 < 256 ^ n → increment (encode n v) = some (encode n (v + 1))) ∧
      (v % 256 ^ n + 1 = 256 ^ n →
        increment (encode n v) = none ∧ encode n (v + 1) = replicate n 0) := by
  induction n with
  | zero => simp [encode, increment, mod_one]
  | succ n ih =>
    have hpos : 0 < 256 ^ n := Nat.pow_pos (by decide)
    have hmod := mod_lt v hpos
    have hdiv : 256 ^ n * (v / 256 ^ n) + v % 256 ^ n = v := div_add_mod v _
    rw [mod_pow_succ, pow_succ, encode, encode, increment]
    rcases lt_or_eq_of_le (succ_le_of_lt hmod) with hlt | heq
    · -- no carry: the first byte stays
      have hfirst : (v + 1) / 256 ^ n = v / 256 ^ n := by
        refine Nat.div_eq_of_lt_le ?_ ?_
        · rw [mul_comm]; omega
        · rw [add_mul, one_mul, mul_comm]; omega
      have hbyte : 256 ^ n * (v / 256 ^ n % 256) ≤ 256 ^ n * 255 := mul_le_mul_left _ (by omega)
      rw [ih.1 hlt, hfirst]
      exact ⟨fun _ => rfl, fun h => absurd h (by omega)⟩
    · obtain ⟨hnone, hzeros⟩ := ih.2 heq
      have hfirst : (v + 1) / 256 ^ n = v / 256 ^ n + 1 := by
        refine Nat.div_eq_of_lt_le ?_ ?_
        · rw [add_mul, one_mul, mul_comm]; omega
        · rw [add_mul, add_mul, one_mul, mul_comm]; omega
      rw [hnone, hzeros, hfirst, length_encode]
      by_cases hlast : v / 256 ^ n % 256 = 255
      · have hbyte : Fin.ofNat 256 (v / 256 ^ n) = Fin.last 255 := Fin.ext hlast
        have hnext : Fin.ofNat 256 (v / 256 ^ n + 1) = 0 :=
          Fin.ext (show (v / 256 ^ n + 1) % 256 = 0 by omega)
        rw [if_pos hbyte, hnext, hlast]
        exact ⟨fun h => absurd h (by omega), fun _ => ⟨rfl, rfl⟩⟩
      · have hbyte : ¬ Fin.ofNat 256 (v / 256 ^ n) = Fin.last 255 :=
          fun h => hlast (congrArg Fin.val h)
        have hnext : Fin.ofNat 256 (v / 256 ^ n) + 1 = Fin.ofNat 256 (v / 256 ^ n + 1) :=
          Fin.ext (show (v / 256 ^ n % 256 + 1) % 256 = (v / 256 ^ n + 1) % 256 by omega)
        have hsmall : 256 ^ n * (v / 256 ^ n % 256) ≤ 256 ^ n * 254 := mul_le_mul_left _ (by omega)
        rw [if_neg hbyte, hnext]
        exact ⟨fun _ => rfl, fun h => absurd h (by omega)⟩

/-- One number is next to the other. -/
theorem increment_encode_eq_some_iff (hv : v < 256 ^ n) (hw : w < 256 ^ n) :
    increment (encode n v) = some (encode n w) ↔ w = v + 1 := by
  obtain ⟨hnext, hlast⟩ := increment_encode n v
  rw [mod_eq_of_lt hv] at hnext hlast
  rcases lt_or_eq_of_le (succ_le_of_lt hv) with hlt | heq
  · rw [hnext hlt, Option.some.injEq, encode_inj hlt hw, eq_comm]
  · rw [(hlast heq).1]
    exact iff_of_false (Option.some_ne_none _).symm (by omega)

/-- A number whose bytes are all the same. -/
theorem forall_mem_encode_iff {x : Byte} (hx : encode n w = replicate n x)
    (hv : v < 256 ^ n) (hw : w < 256 ^ n) : (∀ y ∈ encode n v, y = x) ↔ v = w := by
  rw [← encode_inj hv hw, hx, eq_replicate_iff, and_iff_right (length_encode n v)]

/-- Before the zeros there are only fewer zeros. -/
theorem lt_zeros_iff : a < replicate n 0 ↔ a.length < n ∧ ∀ x ∈ a, x = 0 := by
  induction n generalizing a with
  | zero => exact iff_of_false (not_lt_nil a) fun h => not_lt_zero _ h.1
  | succ n ih =>
    cases a with
    | nil => simp [replicate_succ]
    | cons x a =>
      rw [replicate_succ, cons_lt_cons_iff, ih, forall_mem_cons, length_cons, add_lt_add_iff_right]
      tauto

/-- **The next string as a bound, part by part.**  A string whose first part has the length of the
given first part is below the next string if its first part is smaller, or the same and the second
part is below the next second part; after a carry also fewer zeros behind the next first part. -/
theorem all_increment_append_iff (h : c.length = a.length) :
    (increment (a ++ b)).all (fun u => decide (c ++ d < u)) ↔
      c < a ∨ (c = a ∧ (increment b).all fun u => decide (d < u)) ∨
        increment b = none ∧ increment a = some c ∧ d < replicate b.length 0 := by
  have hle : (increment a).all (fun u => decide (c < u)) ↔ c < a ∨ c = a := by
    rw [all_increment_iff h.ge, ← h, take_length, not_lt, le_iff_lt_or_eq]
  rw [increment_append]
  rcases hb : increment b with - | b'
  · rcases ha : increment a with - | a'
    · rw [ha] at hle
      simp [hle.mp rfl]
    · rw [ha, Option.all_some, decide_eq_true_eq] at hle
      have hlength : c.length = a'.length := h.trans (length_increment ha).symm
      rw [Option.map_some, Option.all_some, decide_eq_true_eq, append_lt_append_iff hlength, hle,
        or_assoc, Option.some.injEq, eq_comm (a := a')]
      simp
  · simp [append_lt_append_iff h]

end BigEndian
