/-
# Account definitions and amounts (pkg/bal/model.go)

`AccountDef.validate` is the definition check and `parseAmount` the only crossing from
decimal text to integer minor units.  Errors are kept as data: each constructor stands
for one message of the source and carries what that message prints.

`decimalValue` is the number a decimal text denotes, written without regard to scales;
`parseAmount_value` says that a parsed amount is that number at the scale given.
-/
import Mathlib.Tactic.FieldSimp
import Mathlib.Tactic.Ring
import Mathlib.Tactic.NormNum
import Xolu.Lib.Text

namespace Xolu.Bal

open List Text
/-! ### Account definitions -/

/-- A requested account. -/
structure AccountDef where
  id : String
  unit : String
  scale : Nat
  floor : Int
  ceiling : Option Int
  postable : Bool
  policy : String
deriving DecidableEq, Repr

/-- The refusals of a definition. -/
inductive DefError where
  | idLength
  | idWhitespace
  | unitLength
  | scaleRange
  | ceilingBelowFloor (ceiling floor : Int)
  | unknownPolicy (policy : String)
deriving DecidableEq, Repr

/-- `ValidateAccountID`: 1 to 256 bytes, no whitespace. -/
def validateAccountID (id : String) : Except DefError Unit :=
  -- Go's `len` counts bytes
  if id = "" ∨ 256 < id.utf8ByteSize then .error .idLength
  else if id.toList.any (fun c => [' ', '\t', '\n', '\r'].contains c) then
    .error .idWhitespace
  else .ok ()

def AccountDef.validate (d : AccountDef) : Except DefError Unit :=
  match validateAccountID d.id with
  | .error e => .error e
  | .ok () =>
    if d.unit = "" ∨ 64 < d.unit.utf8ByteSize then .error .unitLength
    else if 18 < d.scale then .error .scaleRange
    else match d.ceiling with
      | some c => if c < d.floor then .error (.ceilingBelowFloor c d.floor) else .ok ()
      | none => .ok ()

/-! ### Amounts -/

/-- The refusals of `ParseAmount`. -/
inductive AmountError where
  | empty
  | malformed (s : String)
  | decimalPlaces (s : String) (scale : Nat)
  | overflow (s : String)
deriving DecidableEq, Repr

/-- A decimal text cut at its sign and its first point. -/
structure Decimal where
  neg : Bool
  intPart : List Char
  fracPart : List Char

/-- The text after the sign, as the messages print it. -/
def splitSign : List Char → Bool × List Char
  | '-' :: rest => (true, rest)
  | '+' :: rest => (false, rest)
  | s => (false, s)

/-- Sign, integer part and fraction of a trimmed text. -/
def Decimal.ofText (s : List Char) : Decimal where
  neg := (splitSign s).1
  intPart := (splitSign s).2.takeWhile (· ≠ '.')
  fracPart := ((splitSign s).2.dropWhile (· ≠ '.')).drop 1

/-- The value of a decimal digit. -/
def digit (c : Char) : Nat := c.toNat - 48

/-- The digit loop: refuse what is not a digit, then what would pass `2^63 - 1`. -/
def foldDigits (s : String) : Nat → List Char → Except AmountError Nat
  | v, [] => .ok v
  | v, c :: cs =>
    -- the bound is tested before the digit goes in, so that `v` never leaves int64
    if c.toNat < 48 ∨ 57 < c.toNat then .error (.malformed s)
    else if (9223372036854775807 - digit c) / 10 < v then .error (.overflow s)
    else foldDigits s (v * 10 + digit c) cs

def parseAmount (text : String) (scale : Nat) : Except AmountError Int :=
  let s := trimSpace text.toList
  let d := Decimal.ofText s
  let shown := String.ofList (splitSign s).2
  -- a lone sign or point has no digits; the fraction is measured in bytes
  if s = [] then .error .empty
  else if d.intPart = [] ∧ d.fracPart = [] then .error (.malformed shown)
  else if scale < byteLength d.fracPart then .error (.decimalPlaces shown scale)
  else
    let padded := d.fracPart ++ replicate (scale - byteLength d.fracPart) '0'
    match foldDigits shown 0 (d.intPart ++ padded) with
    | .error e => .error e
    | .ok v => .ok (if d.neg then -(v : Int) else v)

/-- `FormatAmount`: the canonical decimal text of minor units. -/
def formatAmount (v : Int) (scale : Nat) : String :=
  let digits := Nat.toDigits 10 v.natAbs
  let padded := replicate (scale + 1 - digits.length) '0' ++ digits
  let body :=
    if 0 < scale then
      padded.take (padded.length - scale) ++ '.' :: padded.drop (padded.length - scale)
    else digits
  String.ofList (if v < 0 then '-' :: body else body)

example : (parseAmount " -12.5" 2, formatAmount (-1250) 2) = (.ok (-1250), "-12.50") := by decide

/-! ### What a decimal text denotes -/

/-- The number a string of digits denotes. -/
def digitsValue (cs : List Char) : Nat := cs.foldl (fun v c => v * 10 + digit c) 0

/-- The rational a cut decimal text denotes. -/
def Decimal.value (d : Decimal) : ℚ :=
  (if d.neg then -1 else 1) *
    (digitsValue d.intPart + digitsValue d.fracPart / 10 ^ d.fracPart.length)

/-- The rational a decimal text denotes. -/
def decimalValue (text : String) : ℚ := (Decimal.ofText (trimSpace text.toList)).value

/-- Appending digits shifts what stands before them. -/
theorem foldl_digits (cs : List Char) (v : Nat) :
    cs.foldl (fun v c => v * 10 + digit c) v = v * 10 ^ cs.length + digitsValue cs := by
  unfold digitsValue
  induction cs generalizing v with
  | nil => simp
  | cons c cs ih =>
    rw [foldl_cons, ih, foldl_cons, ih (0 * 10 + digit c), length_cons, pow_succ]
    ring

theorem digitsValue_append (cs ds : List Char) :
    digitsValue (cs ++ ds) = digitsValue cs * 10 ^ ds.length + digitsValue ds := by
  rw [digitsValue, foldl_append, foldl_digits]
  rfl

theorem digitsValue_replicate_zero (n : Nat) : digitsValue (replicate n '0') = 0 := by
  unfold digitsValue
  induction n with
  | zero => rfl
  | succ n ih => rw [replicate_succ, foldl_cons]; exact ih

/-- Padding the fraction to the scale counts in units of that scale. -/
theorem digitsValue_padded (is fs : List Char) {scale : Nat} (h : fs.length ≤ scale) :
    (digitsValue (is ++ (fs ++ replicate (scale - fs.length) '0')) : ℚ)
      = (digitsValue is + digitsValue fs / 10 ^ fs.length) * 10 ^ scale := by
  have hpow : (10 : ℚ) ^ scale = 10 ^ fs.length * 10 ^ (scale - fs.length) := by
    rw [← pow_add, Nat.add_sub_cancel' h]
  rw [digitsValue_append, digitsValue_append, digitsValue_replicate_zero, length_append,
    length_replicate, Nat.add_sub_cancel' h, Nat.add_zero, add_mul]
  push_cast
  rw [hpow]
  field_simp

/-- A character `0` to `9`. -/
def IsDigit (c : Char) : Prop := 48 ≤ c.toNat ∧ c.toNat ≤ 57

theorem IsDigit.digit_le {c : Char} (h : IsDigit c) : digit c ≤ 9 := by
  unfold digit
  have := h.2
  omega

/-- Reading on never makes the number smaller. -/
theorem le_foldl_digits (cs : List Char) (v : Nat) :
    v ≤ cs.foldl (fun v c => v * 10 + digit c) v := by
  rw [foldl_digits]
  calc v ≤ v * 10 ^ cs.length := Nat.le_mul_of_pos_right v (by positivity)
    _ ≤ _ := Nat.le_add_right _ _

/-- **The loop succeeds exactly on digits whose number fits int64, and returns it.** -/
theorem foldDigits_eq_ok_iff {s : String} {cs : List Char} {v w : Nat}
    (hv : v ≤ 9223372036854775807) : foldDigits s v cs = .ok w ↔
      (∀ c ∈ cs, IsDigit c) ∧ w = cs.foldl (fun v c => v * 10 + digit c) v ∧
        w ≤ 9223372036854775807 := by
  induction cs generalizing v with
  | nil =>
    simp only [foldDigits, Except.ok.injEq, not_mem_nil, foldl_nil]
    constructor
    · rintro rfl
      exact ⟨by simp, rfl, hv⟩
    · rintro ⟨-, h, -⟩
      exact h.symm
  | cons c cs ih =>
    rw [foldDigits, forall_mem_cons, foldl_cons]
    by_cases hc : IsDigit c
    · have hc9 := hc.digit_le
      rw [if_neg (by unfold IsDigit at hc; omega)]
      by_cases hov : (9223372036854775807 - digit c) / 10 < v
      · -- the number with this digit is past the bound, and the rest only adds to it
        rw [if_pos hov]
        have hgrow := le_foldl_digits cs (v * 10 + digit c)
        constructor
        · intro h
          cases h
        · rintro ⟨-, hw, hle⟩
          omega
      · rw [if_neg hov, ih (by omega)]
        simp only [hc, true_and]
    · rw [if_pos (by unfold IsDigit at hc; omega)]
      simp only [hc, false_and, reduceCtorEq]

/-- **A parsed amount is the denoted number in minor units at the given scale.** -/
theorem parseAmount_value {text : String} {scale : Nat} {v : Int}
    (h : parseAmount text scale = .ok v) : (v : ℚ) = decimalValue text * 10 ^ scale := by
  simp only [parseAmount] at h
  unfold decimalValue Decimal.value
  -- the messages also see the text, the value only its parts
  generalize Decimal.ofText (trimSpace text.toList) = d at h ⊢
  split at h
  · cases h
  split at h
  · cases h
  split at h
  · cases h
  next hplaces =>
  split at h
  · cases h
  next w hw =>
  obtain ⟨hdigits, hval, -⟩ := (foldDigits_eq_ok_iff (by decide)).mp hw
  -- the digits passed the loop, so bytes and characters agree
  have hlen : byteLength d.fracPart = d.fracPart.length :=
    byteLength_ascii fun c hc => (hdigits c (by simp [hc])).2.trans (by decide)
  rw [hlen] at hplaces hval
  have hq : (w : ℚ) = (digitsValue d.intPart
      + digitsValue d.fracPart / 10 ^ d.fracPart.length) * 10 ^ scale := by
    rw [hval, ← digitsValue_padded _ _ (by omega)]
    rfl
  simp only [Except.ok.injEq] at h
  rw [← h]
  by_cases hneg : d.neg = true
  · rw [if_pos hneg, if_pos hneg]
    push_cast
    rw [hq]
    ring
  · rw [if_neg hneg, if_neg hneg, one_mul, Int.cast_natCast]
    exact hq

end Xolu.Bal
