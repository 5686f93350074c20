/-
# The amount codec (pkg/bal/model.go)

`parseAmount` is written as the source runs: cut the text, measure the fraction, pad it and
fold the digits with a test before each one.  Here is what the two functions are for, said
without the loop.  An `AmountText` is a text of the accepted language: an optional sign,
digits with at most one point among them, and at least one digit; its fields carry the
proofs, so a text outside the language is not a value of the type.

Main results: `parseAmount_eq_ok_iff`, the accepted language and the value returned, and
`parseAmount_formatAmount`, that the canonical text reads back as the amount it was made of.
Both rest on `foldDigits_eq_ok_iff`: the test made before each digit is exact, it refuses a
text precisely when the finished number would leave int64.
-/
import Mathlib.Tactic.Positivity
import Xolu.Bal.Model

namespace Xolu.Bal

open List Decimal Nat Text
/-! ### The accepted language -/

/-- What a decimal text may begin with. -/
inductive Sign where
  | unsigned
  | plus
  | minus
deriving DecidableEq, Repr

/-- The characters of a sign. -/
def Sign.chars : Sign → List Char
  | unsigned => []
  | plus => ['+']
  | minus => ['-']

/-- A text of the accepted language: an optional sign, then decimal digits with at most one
point, at least one digit. -/
structure AmountText where
  sign : Sign
  intPart : List Char
  point : Bool
  fracPart : List Char
  int_digits : ∀ c ∈ intPart, IsDigit c
  frac_digits : ∀ c ∈ fracPart, IsDigit c
  frac_of_point : point = false → fracPart = []
  some_digit : intPart ++ fracPart ≠ []

variable (a : AmountText)

/-- The text after the sign. -/
def AmountText.body : List Char := a.intPart ++ if a.point then '.' :: a.fracPart else []

/-- The text, character by character. -/
def AmountText.text : List Char := a.sign.chars ++ a.body

/-- The text cut as the source cuts it. -/
def AmountText.decimal : Decimal where
  neg := a.sign = .minus
  intPart := a.intPart
  fracPart := a.fracPart

/-- The number a text denotes. -/
def AmountText.value (a : AmountText) : ℚ := a.decimal.value

/-! ### Cutting a text -/

variable {c : Char}

theorem IsDigit.ne_point (h : IsDigit c) : c ≠ '.' := by
  rintro rfl
  exact absurd h.1 (by decide)

theorem IsDigit.ne_minus (h : IsDigit c) : c ≠ '-' := by
  rintro rfl
  exact absurd h.1 (by decide)

theorem IsDigit.ne_plus (h : IsDigit c) : c ≠ '+' := by
  rintro rfl
  exact absurd h.1 (by decide)

variable {s : List Char}

/-- A text that begins with neither sign is cut before its first character. -/
theorem splitSign_eq (hm : s.head? ≠ some '-') (hp : s.head? ≠ some '+') :
    splitSign s = (false, s) := by
  unfold splitSign
  split
  · exact absurd rfl hm
  · exact absurd rfl hp
  · rfl

/-- The body of a text of the language begins with a digit or the point. -/
theorem AmountText.body_head (h : a.body.head? = some c) : IsDigit c ∨ c = '.' := by
  unfold body at h
  cases hi : a.intPart with
  | cons d ds =>
    rw [hi, cons_append, head?_cons, Option.some.injEq] at h
    left
    apply a.int_digits
    rw [hi, ← h]
    exact mem_cons_self
  | nil =>
    rw [hi, nil_append] at h
    split at h
    · right
      exact (Option.some.inj h).symm
    · cases h

theorem AmountText.splitSign_text : splitSign a.text = (decide (a.sign = .minus), a.body) := by
  unfold text
  cases hs : a.sign with
  | minus | plus => rfl
  | unsigned =>
    have hhead : ∀ c, ¬ (IsDigit c ∨ c = '.') → a.body.head? ≠ some c :=
      fun c hc h => hc (a.body_head h)
    apply splitSign_eq
    · apply hhead
      exact fun h => h.elim (fun h => h.ne_minus rfl) (by decide)
    · apply hhead
      exact fun h => h.elim (fun h => h.ne_plus rfl) (by decide)

/-- Digits are not cut. -/
theorem takeWhile_digits {cs rest : List Char} (h : ∀ c ∈ cs, IsDigit c) :
    (cs ++ rest).takeWhile (· ≠ '.') = cs ++ rest.takeWhile (· ≠ '.') := by
  apply takeWhile_append_of_pos
  intro c hc
  simpa using (h c hc).ne_point

theorem dropWhile_digits {cs rest : List Char} (h : ∀ c ∈ cs, IsDigit c) :
    (cs ++ rest).dropWhile (· ≠ '.') = rest.dropWhile (· ≠ '.') := by
  apply dropWhile_append_of_pos
  intro c hc
  simpa using (h c hc).ne_point

/-- **Cutting a text of the language gives back its parts.** -/
theorem AmountText.ofText_text : ofText a.text = a.decimal := by
  unfold ofText decimal
  rw [a.splitSign_text]
  unfold body
  rw [takeWhile_digits a.int_digits, dropWhile_digits a.int_digits]
  cases hp : a.point with
  | true => simp
  | false => simp [a.frac_of_point hp]

/-- The sign a text is cut at. -/
def signOf : List Char → Sign
  | '-' :: _ => .minus
  | '+' :: _ => .plus
  | _ => .unsigned

theorem signOf_chars_append (s : List Char) : (signOf s).chars ++ (splitSign s).2 = s := by
  unfold signOf
  split
  · rfl
  · rfl
  · next hm hp =>
    rw [splitSign_eq]
    · rfl
    · intro h
      obtain ⟨t, rfl⟩ := head?_eq_some_iff.mp h
      exact hm t rfl
    · intro h
      obtain ⟨t, rfl⟩ := head?_eq_some_iff.mp h
      exact hp t rfl

/-- A text whose parts are digits, one of them at least, belongs to the language. -/
theorem exists_amountText (hi : ∀ c ∈ (ofText s).intPart, IsDigit c)
    (hf : ∀ c ∈ (ofText s).fracPart, IsDigit c)
    (hne : (ofText s).intPart ++ (ofText s).fracPart ≠ []) : ∃ a : AmountText, s = a.text := by
  -- what follows the integer part is nothing, or the point and the fraction
  have hrest : (splitSign s).2.dropWhile (· ≠ '.') = [] ∨
      (splitSign s).2.dropWhile (· ≠ '.') = '.' :: (ofText s).fracPart := by
    unfold ofText
    cases hd : (splitSign s).2.dropWhile (· ≠ '.') with
    | nil => exact .inl rfl
    | cons c cs =>
      have hc : c = '.' := by
        have := head?_dropWhile_not (· ≠ '.') (splitSign s).2
        rw [hd] at this
        simpa using this
      right
      rw [hc, drop_one, tail_cons]
  refine ⟨{ sign := signOf s, intPart := (ofText s).intPart
            point := !((splitSign s).2.dropWhile (· ≠ '.')).isEmpty
            fracPart := (ofText s).fracPart
            int_digits := hi, frac_digits := hf, some_digit := hne
            frac_of_point := ?_ }, ?_⟩
  · intro h
    rw [Bool.not_eq_false', List.isEmpty_iff] at h
    unfold ofText
    rw [h, drop_nil]
  · conv_lhs => rw [← signOf_chars_append s]
    congr 1
    conv_lhs => rw [← takeWhile_append_dropWhile (p := (· ≠ '.')) (l := (splitSign s).2)]
    show _ = (splitSign s).2.takeWhile (· ≠ '.') ++
      if !((splitSign s).2.dropWhile (· ≠ '.')).isEmpty then '.' :: (ofText s).fracPart
      else []
    rcases hrest with h | h <;> rw [h] <;> rfl

/-! ### The accepted language and the value -/

theorem byteLength_digits {cs : List Char} (h : ∀ c ∈ cs, IsDigit c) : byteLength cs = cs.length :=
  byteLength_ascii fun c hc => (h c hc).2.trans (by decide)

variable {n : Nat}

/-- The padding is digits. -/
theorem isDigit_of_mem_zeros (h : c ∈ replicate n '0') : IsDigit c := by
  rw [eq_of_mem_replicate h]
  exact ⟨by decide, by decide⟩

variable {scale : Nat}

variable (a : AmountText)

/-- The magnitude of a text at a scale is the number its padded digits denote. -/
theorem AmountText.abs_value_mul (h : a.fracPart.length ≤ scale) :
    |a.value| * 10 ^ scale = (digitsValue (a.intPart ++ (a.fracPart ++
      replicate (scale - a.fracPart.length) '0')) : ℚ) := by
  rw [digitsValue_padded _ _ h]
  unfold value Decimal.value
  have hnonneg : (0 : ℚ) ≤ digitsValue a.decimal.intPart
      + digitsValue a.decimal.fracPart / 10 ^ a.decimal.fracPart.length := by positivity
  rw [abs_mul, abs_of_nonneg hnonneg]
  split <;> simp [decimal]

/-- At a scale with room for its fraction a text denotes a whole number of minor units. -/
theorem AmountText.exists_minorUnits
    (h : a.fracPart.length ≤ scale) : ∃ v : Int, (v : ℚ) = a.value * 10 ^ scale := by
  unfold value Decimal.value
  rw [mul_assoc, decimal, ← digitsValue_padded _ _ h]
  split
  · exact ⟨-digitsValue _, by push_cast; rw [neg_one_mul]⟩
  · exact ⟨digitsValue _, by rw [one_mul, Int.cast_natCast]⟩

theorem AmountText.text_ne_nil : a.text ≠ [] := by
  intro h
  unfold text body at h
  obtain ⟨-, hi, hf⟩ : a.sign.chars = [] ∧ a.intPart = [] ∧
      (if a.point then '.' :: a.fracPart else []) = [] := by
    simpa only [append_eq_nil_iff] using h
  apply a.some_digit
  rw [hi, nil_append]
  apply a.frac_of_point
  cases hp : a.point with
  | true => simp [hp] at hf
  | false => rfl

/-- The loop runs through the padded digits of a text that fits. -/
theorem AmountText.foldDigits_padded (shown : String)
    (h : a.fracPart.length ≤ scale) (hfit : |a.value| * 10 ^ scale ≤ 9223372036854775807) :
    foldDigits shown 0 (a.intPart ++ (a.fracPart ++
      replicate (scale - a.fracPart.length) '0')) = .ok (digitsValue (a.intPart ++
        (a.fracPart ++ replicate (scale - a.fracPart.length) '0'))) := by
  rw [foldDigits_eq_ok_iff (by decide)]
  refine ⟨?_, rfl, ?_⟩
  · intro c hc
    rw [mem_append, mem_append] at hc
    rcases hc with hc | hc | hc
    · exact a.int_digits c hc
    · exact a.frac_digits c hc
    · exact isDigit_of_mem_zeros hc
  · rw [a.abs_value_mul h] at hfit
    exact_mod_cast hfit

/-- **The accepted language.**  A text is read exactly when, trimmed, it is an optional sign
and decimal digits with at most one point, with no more fraction digits than the scale has,
whose magnitude in minor units fits int64; and what is returned is its exact value. -/
theorem parseAmount_eq_ok_iff {s : String} {v : Int} : parseAmount s scale = .ok v ↔
      ∃ a : AmountText, trimSpace s.toList = a.text ∧ a.fracPart.length ≤ scale ∧
        |a.value| * 10 ^ scale ≤ 9223372036854775807 ∧ (v : ℚ) = a.value * 10 ^ scale := by
  constructor
  · intro h
    have hval := parseAmount_value h
    simp only [parseAmount] at h
    split at h
    · cases h
    split at h
    · cases h
    next hparts =>
    split at h
    · cases h
    next hplaces =>
    split at h
    · cases h
    next w hw =>
    rw [foldDigits_eq_ok_iff (by decide)] at hw
    obtain ⟨hdigits, hw, hle⟩ := hw
    simp only [mem_append] at hdigits
    obtain ⟨a, ha⟩ := exists_amountText (s := trimSpace s.toList)
      (fun c hc => hdigits c (.inl hc)) (fun c hc => hdigits c (.inr (.inl hc)))
      (fun hnil => hparts (append_eq_nil_iff.mp hnil))
    have hcut : ofText (trimSpace s.toList) = a.decimal := by rw [ha, a.ofText_text]
    rw [hcut] at hw hplaces
    simp only [AmountText.decimal, byteLength_digits a.frac_digits] at hw hplaces
    refine ⟨a, ha, by omega, ?_, ?_⟩
    · rw [a.abs_value_mul (by omega), digitsValue, ← hw]
      exact_mod_cast hle
    · rw [hval, decimalValue, hcut]
      rfl
  · rintro ⟨a, htrim, hplaces, hfit, hval⟩
    have hok : ∃ u, parseAmount s scale = .ok u := by
      simp only [parseAmount, htrim, a.ofText_text, a.splitSign_text, AmountText.decimal,
        byteLength_digits a.frac_digits]
      rw [if_neg a.text_ne_nil, if_neg, if_neg (by omega), a.foldDigits_padded _ hplaces hfit]
      · exact ⟨_, rfl⟩
      · rintro ⟨hi, hf⟩
        exact a.some_digit (by rw [hi, hf, append_nil])
    obtain ⟨u, hu⟩ := hok
    have huv : (u : ℚ) = v := by
      rw [parseAmount_value hu, hval, decimalValue, htrim, a.ofText_text]
      rfl
    rw [hu, Int.cast_injective huv]

/-! ### The canonical text -/

theorem digitsValue_eq_ofDigitChars (cs : List Char) : digitsValue cs = ofDigitChars 10 cs 0 := by
  unfold digitsValue ofDigitChars digit
  congr 1
  funext v c
  rw [mul_comm]
  rfl

theorem digitsValue_toDigits (n : Nat) : digitsValue (toDigits 10 n) = n := by
  rw [digitsValue_eq_ofDigitChars, ofDigitChars_ten_toDigits]

theorem isDigit_of_mem_toDigits (h : c ∈ Nat.toDigits 10 n) : IsDigit c := by
  have hd := Nat.isDigit_of_mem_toDigits (by decide) (by decide) h
  rw [Char.isDigit, Bool.and_eq_true, decide_eq_true_eq, decide_eq_true_eq] at hd
  exact ⟨UInt32.le_iff_toNat_le.mp hd.1, UInt32.le_iff_toNat_le.mp hd.2⟩

/-- The digits of a magnitude, at least one of them before the point. -/
def paddedDigits (n scale : Nat) : List Char :=
  replicate (scale + 1 - (toDigits 10 n).length) '0' ++ toDigits 10 n

theorem isDigit_of_mem_paddedDigits {scale : Nat} (h : c ∈ paddedDigits n scale) : IsDigit c := by
  rcases mem_append.mp h with h | h
  · exact isDigit_of_mem_zeros h
  · exact isDigit_of_mem_toDigits h

theorem digitsValue_paddedDigits (n scale : Nat) : digitsValue (paddedDigits n scale) = n := by
  rw [paddedDigits, digitsValue_append, digitsValue_replicate_zero, digitsValue_toDigits,
    zero_mul, zero_add]

theorem scale_lt_length_paddedDigits (n scale : Nat) : scale < (paddedDigits n scale).length := by
  rw [paddedDigits, length_append, length_replicate]
  omega

/-- The canonical text as a text of the language. -/
def canonicalText (v : Int) (scale : Nat) : AmountText where
  sign := if v < 0 then .minus else .unsigned
  intPart := (paddedDigits v.natAbs scale).take ((paddedDigits v.natAbs scale).length - scale)
  point := decide (0 < scale)
  fracPart := (paddedDigits v.natAbs scale).drop ((paddedDigits v.natAbs scale).length - scale)
  int_digits c hc := isDigit_of_mem_paddedDigits (mem_of_mem_take hc)
  frac_digits c hc := isDigit_of_mem_paddedDigits (mem_of_mem_drop hc)
  frac_of_point h := by
    rw [drop_eq_nil_iff]
    rw [decide_eq_false_iff_not] at h
    omega
  some_digit := by
    rw [take_append_drop]
    intro h
    have := scale_lt_length_paddedDigits v.natAbs scale
    rw [h] at this
    exact absurd this (not_lt_zero _)

theorem canonicalText_frac_length (v : Int) (scale : Nat) :
    (canonicalText v scale).fracPart.length = scale := by
  have := scale_lt_length_paddedDigits v.natAbs scale
  unfold canonicalText
  rw [length_drop]
  omega

/-- `FormatAmount` writes the canonical text. -/
theorem formatAmount_toList (v : Int) (scale : Nat) :
    (formatAmount v scale).toList = (canonicalText v scale).text := by
  unfold formatAmount AmountText.text AmountText.body canonicalText
  rcases Nat.eq_zero_or_pos scale with rfl | hs
  · -- at scale 0 nothing is padded and no point is written
    have hpad : paddedDigits v.natAbs 0 = toDigits 10 v.natAbs := by
      rw [paddedDigits, Nat.sub_eq_zero_of_le length_toDigits_pos, replicate_zero, nil_append]
    by_cases hv : v < 0 <;> simp [hv, hpad, Sign.chars]
  · by_cases hv : v < 0 <;> simp [hv, hs, paddedDigits, Sign.chars]

/-- The canonical text denotes the amount it was made of. -/
theorem canonicalText_value (v : Int) (scale : Nat) :
    (canonicalText v scale).value * 10 ^ scale = v := by
  have hlen := canonicalText_frac_length v scale
  have hcut := digitsValue_append (canonicalText v scale).intPart (canonicalText v scale).fracPart
  rw [hlen] at hcut
  have hall : (canonicalText v scale).intPart ++ (canonicalText v scale).fracPart
      = paddedDigits v.natAbs scale := take_append_drop _ _
  rw [hall, digitsValue_paddedDigits] at hcut
  have hmag : ((digitsValue (canonicalText v scale).intPart : ℚ)
      + digitsValue (canonicalText v scale).fracPart / 10 ^ scale) * 10 ^ scale = v.natAbs := by
    rw [hcut]
    push_cast
    field_simp
  unfold AmountText.value value AmountText.decimal
  rw [hlen, mul_assoc, hmag]
  by_cases hv : v < 0
  · have : (v.natAbs : ℚ) = -v := by
      rw [← Int.cast_natCast, Int.ofNat_natAbs_of_nonpos (by omega), Int.cast_neg]
    simp [canonicalText, hv, this]
  · have : (v.natAbs : ℚ) = v := by
      rw [← Int.cast_natCast, Int.natAbs_of_nonneg (by omega)]
    simp [canonicalText, hv, this]

theorem IsDigit.not_isSpace (h : IsDigit c) : isSpace c = false := by
  obtain ⟨h1, h2⟩ := h
  unfold isSpace
  simp
  omega

/-- A text of the language has no spaces in it. -/
theorem AmountText.trimSpace_text (a : AmountText) : trimSpace a.text = a.text := by
  apply trimSpace_eq_self
  intro c hc
  unfold text body at hc
  rw [mem_append, mem_append] at hc
  rcases hc with hc | hc | hc
  · cases hs : a.sign <;> rw [hs] at hc <;> simp [Sign.chars] at hc <;> subst hc <;> decide
  · exact (a.int_digits c hc).not_isSpace
  · cases hp : a.point with
    | false => simp [hp] at hc
    | true =>
      rw [hp, if_pos rfl, mem_cons] at hc
      rcases hc with rfl | hc
      · decide
      · exact (a.frac_digits c hc).not_isSpace

/-- **The canonical text reads back.** -/
theorem parseAmount_formatAmount {v : Int} (scale : Nat) (hlo : -9223372036854775808 < v)
    (hhi : v ≤ 9223372036854775807) : parseAmount (formatAmount v scale) scale = .ok v := by
  rw [parseAmount_eq_ok_iff]
  refine ⟨canonicalText v scale, ?_, (canonicalText_frac_length v scale).le, ?_,
    (canonicalText_value v scale).symm⟩
  · rw [formatAmount_toList, AmountText.trimSpace_text]
  · have hpos : (0 : ℚ) < 10 ^ scale := by positivity
    rw [← abs_of_pos hpos, ← abs_mul, canonicalText_value, abs_le]
    constructor
    · exact_mod_cast (by omega : -9223372036854775807 ≤ v)
    · exact_mod_cast hhi

/-- **The codec.**  `ParseAmount` succeeds exactly on the texts of the language that have
room for their fraction and fit int64, and returns their exact value in minor units; and the
text `FormatAmount` writes for an amount other than `-2^63` is read back as that amount. -/
theorem amount_codec (scale : Nat) :
    (∀ s : String,
      ((∃ v, parseAmount s scale = .ok v) ↔
        ∃ a : AmountText, trimSpace s.toList = a.text ∧ a.fracPart.length ≤ scale ∧
          |a.value| * 10 ^ scale ≤ 2 ^ 63 - 1) ∧
      ∀ v, parseAmount s scale = .ok v →
        ∃ a : AmountText, trimSpace s.toList = a.text ∧ (v : ℚ) = a.value * 10 ^ scale) ∧
    ∀ v : Int, -2 ^ 63 < v → v < 2 ^ 63 → parseAmount (formatAmount v scale) scale = .ok v := by
  refine ⟨fun s => ⟨⟨?_, ?_⟩, ?_⟩, ?_⟩
  · rintro ⟨v, hv⟩
    obtain ⟨a, ha, hplaces, hfit, -⟩ := parseAmount_eq_ok_iff.mp hv
    exact ⟨a, ha, hplaces, hfit.trans (by norm_num)⟩
  · rintro ⟨a, ha, hplaces, hfit⟩
    obtain ⟨v, hv⟩ := a.exists_minorUnits hplaces
    exact ⟨v, parseAmount_eq_ok_iff.mpr ⟨a, ha, hplaces, hfit.trans (by norm_num), hv⟩⟩
  · intro v hv
    obtain ⟨a, ha, -, -, hval⟩ := parseAmount_eq_ok_iff.mp hv
    exact ⟨a, ha, hval⟩
  · intro v hlo hhi
    exact parseAmount_formatAmount scale (by omega) (by omega)

/-- The largest amount at the largest scale. -/
theorem amount_codec_max : (-2 ^ 63 : Int) < 2 ^ 63 - 1 ∧
      parseAmount (formatAmount (2 ^ 63 - 1) 18) 18 = .ok (2 ^ 63 - 1) :=
  ⟨by decide, (amount_codec 18).2 (2 ^ 63 - 1) (by decide) (by decide)⟩

end Xolu.Bal
