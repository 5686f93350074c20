/-
# Texts as lists of characters

`trimSpace` is `strings.TrimSpace`, on the characters of a text: what Unicode counts as white
space is cut off at both ends.  `byteLength` is `len`, which counts the bytes of the encoding.
-/
import Mathlib

namespace Text

open List

/-- The white space of Unicode. -/
def isSpace (c : Char) : Bool :=
  let n := c.toNat
  (9 ≤ n && n ≤ 13) || n == 32 || n == 0x85 || n == 0xA0 || n == 0x1680 ||
    (0x2000 ≤ n && n ≤ 0x200a) || n == 0x2028 || n == 0x2029 || n == 0x202f ||
    n == 0x205f || n == 0x3000

/-- A text without the spaces before and after it. -/
def trimSpace (s : List Char) : List Char :=
  ((s.dropWhile isSpace).reverse.dropWhile isSpace).reverse

/-- Nothing is trimmed from a text without spaces. -/
theorem trimSpace_eq_self {s : List Char} (h : ∀ c ∈ s, isSpace c = false) : trimSpace s = s := by
  have hdrop : ∀ t : List Char, (∀ c ∈ t, isSpace c = false) → t.dropWhile isSpace = t := by
    intro t ht
    cases t with
    | nil => rfl
    | cons c cs =>
      rw [dropWhile_cons_of_neg]
      rw [ht c mem_cons_self]
      exact Bool.false_ne_true
  unfold trimSpace
  rw [hdrop s h, hdrop s.reverse fun c hc => h c (mem_reverse.mp hc), reverse_reverse]

/-- The length of a text in bytes. -/
def byteLength (s : List Char) : Nat := (s.map Char.utf8Size).sum

/-- A text of ASCII characters has as many bytes as characters. -/
theorem byteLength_ascii {cs : List Char} (h : ∀ c ∈ cs, c.toNat ≤ 127) :
    byteLength cs = cs.length := by
  unfold byteLength
  induction cs with
  | nil => rfl
  | cons c cs ih =>
    have hc : c.utf8Size = 1 := by
      have := h c mem_cons_self
      rw [Char.utf8Size_eq_one_iff]
      exact UInt32.le_iff_toNat_le.mpr this
    rw [map_cons, sum_cons, hc, ih fun x hx => h x (mem_cons_of_mem _ hx),
      length_cons, Nat.add_comm]

end Text
