/-
# The rollup cascade (pkg/chronicle: chronicle.go, engine.go)

A `Hierarchy` is a tree of grains rooted at the finest one; `parent` points to the next
finer grain.  Appending a value folds it into one bucket per level, and `foldRange` folds a
window from the coarsest whole buckets that fit, descending towards the root at the ragged
ends.

A bucket store addresses a bucket by level and by a `stamp` of its start.  The in-memory
store stamps with the instant itself; a durable one with what its key encoding keeps of it.

Main result: `foldRange_appendAll`.  Whatever leaf the fold starts from, in a `Valid`
hierarchy it sums the values whose finest bucket is stamped inside the window.
-/
import Xolu.Chronicle.Grain
import Xolu.Lib.Keyed
import Mathlib.Data.List.Induction
import Mathlib.Data.List.Sort

namespace Xolu.Chronicle

open Tiling Keyed
open List hiding beq_eq_decide

/-! ### Hierarchies -/

instance : Inhabited Grain := ⟨⟨"", id, id⟩⟩

/-- The grains and, for each, the level of the next finer grain. -/
structure Hierarchy where
  grains : List Grain
  parent : List (Option Nat)

namespace Hierarchy

def levels (h : Hierarchy) : Nat := h.grains.length

/-- `Grain(i)`. -/
def grain (h : Hierarchy) (i : Nat) : Grain := h.grains.getD i default

/-- `Parent(i)`; `none` for the source's -1. -/
def parentOf (h : Hierarchy) (i : Nat) : Option Nat := h.parent.getD i none

/-- `Root`: the first level without a parent. -/
def root (h : Hierarchy) : Nat :=
  ((range h.parent.length).find? fun i => h.parentOf i == none).getD (h.levels - 1)

/-- `Children(i)`, ascending. -/
def children (h : Hierarchy) (i : Nat) : List Nat :=
  (range h.parent.length).filter fun j => h.parentOf j == some i

/-- `Leaves`: the coarsest grain of each branch. -/
def leaves (h : Hierarchy) : List Nat := (range h.levels).filter fun i => (h.children i).isEmpty

/-- `CoarsestLeafFor`: the leaf with the widest first whole bucket inside the window. -/
def coarsestLeafFor (h : Hierarchy) (lo hi : Int) : Nat :=
  (h.leaves.foldl (fun (best : Nat × Int) l =>
    let g := h.grain l
    let s := ceil g.truncate g.next lo
    -- a tie keeps the earlier leaf
    if g.next s ≤ hi then
      if best.2 < g.next s - s then (l, g.next s - s) else best
    else best) (h.root, 0)).1

/-- Walking up from level `i` reaches the root within `n` steps, through levels of the
hierarchy. -/
def reaches (h : Hierarchy) : Nat → Nat → Bool
  | 0, i => h.parentOf i == none
  | n + 1, i =>
    match h.parentOf i with
    | none => true
    | some p => decide (p < h.levels) && h.reaches n p

/-- One root, reached from every level. -/
structure Rooted (h : Hierarchy) : Prop where
  root_lt : h.root < h.levels
  root_unique : ∀ i < h.levels, h.parentOf i = none → i = h.root
  reaches : ∀ i < h.levels, h.reaches h.levels i = true

/-- What the constructors check: one root, reached from everywhere, and grains that tile
the line, each nesting in its parent. -/
structure Valid (h : Hierarchy) : Prop extends Rooted h where
  tiles : ∀ i < h.levels, (h.grain i).Tiles
  nests : ∀ i < h.levels, ∀ p, h.parentOf i = some p →
    Nests (h.grain p).truncate (h.grain i).truncate

theorem coarsestLeafFor_lt {h : Hierarchy} (hv : h.Valid) (lo hi : Int) :
    h.coarsestLeafFor lo hi < h.levels := by
  -- the best level so far is the root or one of the leaves
  refine foldlRecOn (motive := fun best : Nat × Int => best.1 < h.levels) h.leaves _ hv.root_lt ?_
  intro best hb l hl
  have hleaf : l < h.levels := mem_range.mp (mem_filter.mp hl).1
  dsimp only
  split
  · split
    · exact hleaf
    · exact hb
  · exact hb

/-- Every level nests in the finest. -/
theorem Valid.nests_root {h : Hierarchy} (hv : h.Valid) {i : Nat} (hi : i < h.levels) :
    Nests (h.grain h.root).truncate (h.grain i).truncate := by
  suffices H : ∀ n i, i < h.levels → h.reaches n i = true →
      Nests (h.grain h.root).truncate (h.grain i).truncate from H _ i hi (hv.reaches i hi)
  intro n
  induction n with
  | zero =>
    intro i hi hr
    rw [hv.root_unique i hi (by simpa [Hierarchy.reaches] using hr)]
    exact (hv.tiles _ hv.root_lt).idem
  | succ n ih =>
    intro i hi hr
    rcases hp : h.parentOf i with _ | p
    · rw [hv.root_unique i hi hp]
      exact (hv.tiles _ hv.root_lt).idem
    · simp only [Hierarchy.reaches, hp, Bool.and_eq_true, decide_eq_true_eq] at hr
      exact (ih p hr.1 hr.2).trans (hv.nests i hi p hp)

end Hierarchy

/-! ### Bucket stores -/

/-- One stored bucket. -/
structure Bucket (K T : Type) where
  level : Nat
  start : K
  value : T

/-- What addresses a bucket. -/
def Bucket.pk {K T : Type} (b : Bucket K T) : Nat × K := (b.level, b.start)

/-- The contents of a `BucketStore`. -/
abbrev Buckets (K T : Type) := List (Bucket K T)

namespace Buckets

variable {K T : Type} [LinearOrder K]

variable (s : Buckets K T)

def get (level : Nat) (start : K) : Option T :=
  (s.find? fun b => b.pk == (level, start)).map Bucket.value

/-- `Put`: overwrite or add. -/
def put (s : Buckets K T) (level : Nat) (start : K) (v : T) : Buckets K T :=
  if s.any fun b => b.pk == (level, start) then Keyed.put Bucket.pk s ⟨level, start, v⟩
  else s ++ [⟨level, start, v⟩]

/-- `RangeLevel`: the values of the buckets in the window, in ascending order. -/
def rangeLevel (level : Nat) (lo hi : K) : List T :=
  ((s.filter fun b => b.level == level && decide (lo ≤ b.start ∧ b.start < hi)).insertionSort
    fun b c => b.start ≤ c.start).map Bucket.value

theorem put_eq_upsert (level : Nat) (start : K) (v : T) :
    s.put level start v = upsert Bucket.pk s ⟨level, start, v⟩ := by
  unfold put upsert
  simp only [beq_eq_decide]
  rfl

theorem get_put (level : Nat) (start : K) (v : T) (l : Nat) (st : K) :
    (s.put level start v).get l st = if level = l ∧ start = st then some v else s.get l st := by
  have hpk : Bucket.pk ⟨level, start, v⟩ = (l, st) ↔ level = l ∧ start = st := Prod.ext_iff
  unfold get
  simp only [beq_eq_decide]
  rw [put_eq_upsert, find?_upsert]
  simp only [hpk]
  split <;> rfl

variable [AddCommMonoid T] {s : Buckets K T} {level : Nat} {start lo hi : K} {v : T}

/-- What a bucket contributes to a window of a level. -/
def contribution (level : Nat) (lo hi : K) (b : Bucket K T) : T :=
  if b.level = level ∧ lo ≤ b.start ∧ b.start < hi then b.value else 0

theorem sum_rangeLevel :
    (s.rangeLevel level lo hi).sum = (s.map (contribution level lo hi)).sum := by
  unfold rangeLevel
  rw [((perm_insertionSort _ _).map Bucket.value).sum_eq]
  unfold contribution
  rw [sum_map_ite, sum_map_zero, add_zero]
  congr 2
  exact filter_congr fun b _ => by simp [beq_eq_decide]

omit [AddCommMonoid T] in
theorem uniqueKey_put (hu : UniqueKey Bucket.pk s) : UniqueKey Bucket.pk (s.put level start v) := by
  rw [put_eq_upsert]
  exact hu.upsert

/-- Adding `v` to a bucket adds `v` to the windows of its level that hold it. -/
theorem sum_put_get (hu : UniqueKey Bucket.pk s) (l : Nat) :
    ((s.put level start ((s.get level start).getD 0 + v)).map (contribution l lo hi)).sum
      = (s.map (contribution l lo hi)).sum
        + (if level = l ∧ lo ≤ start ∧ start < hi then v else 0) := by
  unfold put get
  rcases hf : s.find? (fun b => b.pk == (level, start)) with _ | b
  · have hnone : (s.any fun b => b.pk == (level, start)) = false :=
      any_eq_false.mpr fun b hb => find?_eq_none.mp hf b hb
    rw [if_neg (by simp [hnone]), map_append, sum_append]
    simp [contribution, hf]
  · have hb := mem_of_find?_eq_some hf
    have hk : b.pk = (level, start) := by simpa using find?_some hf
    rw [if_pos (any_eq_true.mpr ⟨b, hb, by simp [hk]⟩)]
    refine sum_put_add _ hu hb hk ?_
    obtain ⟨rfl, rfl⟩ : b.level = level ∧ b.start = start := by simpa [Bucket.pk] using hk
    unfold contribution
    split <;> simp [hf]

end Buckets

/-! ### The engine -/

section Engine

variable {K T : Type} [LinearOrder K] [AddCommMonoid T]

/-- The buckets `append` touches, level after level. -/
def appendLevels (h : Hierarchy) (stamp : Int → K) (v : T) (t : Int) (ls : List Nat)
    (s : Buckets K T) : Buckets K T :=
  ls.foldl (fun s level =>
    let start := stamp ((h.grain level).truncate t)
    s.put level start ((s.get level start).getD 0 + v)) s

/-- `Append`: fold `v` into the bucket of `t` at every level. -/
def append (h : Hierarchy) (stamp : Int → K) (s : Buckets K T) (v : T) (t : Int) : Buckets K T :=
  appendLevels h stamp v t (range h.levels) s

/-- The store after a sequence of appends. -/
def appendAll (h : Hierarchy) (stamp : Int → K) (es : List (T × Int)) : Buckets K T :=
  es.foldl (fun s e => append h stamp s e.1 e.2) []

/-- `foldRangeAt`, onto the accumulator.  The walk towards the root is bounded by `fuel`;
with none left the level is taken for the root. -/
def foldRangeAt (h : Hierarchy) (stamp : Int → K) (s : Buckets K T) : Nat → Nat → Int → Int → T → T
  | 0, level, lo, hi, acc => (s.rangeLevel level (stamp lo) (stamp hi)).foldl (· + ·) acc
  | fuel + 1, level, lo, hi, acc =>
    match h.parentOf level with
    | none => (s.rangeLevel level (stamp lo) (stamp hi)).foldl (· + ·) acc
    | some child =>
      let g := h.grain level
      let alignedLo := ceil g.truncate g.next lo
      let alignedHi := g.truncate hi
      if alignedLo < alignedHi then
        -- the ragged ends at the finer level, the whole buckets here
        let acc := if lo < alignedLo then foldRangeAt h stamp s fuel child lo alignedLo acc
          else acc
        let acc := (s.rangeLevel level (stamp alignedLo) (stamp alignedHi)).foldl (· + ·) acc
        if alignedHi < hi then foldRangeAt h stamp s fuel child alignedHi hi acc else acc
      -- no whole bucket fits
      else foldRangeAt h stamp s fuel child lo hi acc

def foldRange (h : Hierarchy) (stamp : Int → K) (s : Buckets K T) (lo hi : Int) : T :=
  if lo < hi then foldRangeAt h stamp s h.levels (h.coarsestLeafFor lo hi) lo hi 0 else 0

variable {h : Hierarchy} {stamp : Int → K} {dom : Int → Prop} {s : Buckets K T} {v : T} {t : Int}

theorem uniqueKey_appendLevels (ls : List Nat) (hu : UniqueKey Bucket.pk s) :
    UniqueKey Bucket.pk (appendLevels h stamp v t ls s) := by
  induction ls generalizing s with
  | nil => exact hu
  | cons l ls ih => exact ih (Buckets.uniqueKey_put hu)

/-- A window of a level grows by `v` if the bucket of `t` lies in it. -/
theorem sum_appendLevels {l : Nat} {lo hi : K} (ls : List Nat) (hnd : ls.Nodup)
    (hu : UniqueKey Bucket.pk s) :
    ((appendLevels h stamp v t ls s).map (Buckets.contribution l lo hi)).sum
      = (s.map (Buckets.contribution l lo hi)).sum
        + (if l ∈ ls ∧ lo ≤ stamp ((h.grain l).truncate t) ∧ stamp ((h.grain l).truncate t) < hi
            then v else 0) := by
  unfold appendLevels
  induction ls generalizing s with
  | nil => simp
  | cons k ls ih =>
    rw [nodup_cons] at hnd
    rw [foldl_cons, ih hnd.2 (Buckets.uniqueKey_put hu), Buckets.sum_put_get hu, add_assoc]
    by_cases hkl : k = l
    · -- the level comes once
      subst hkl
      simp [hnd.1]
    · simp [hkl, Ne.symm hkl]

theorem appendAll_concat (es : List (T × Int)) (e : T × Int) :
    appendAll h stamp (es ++ [e]) = append h stamp (appendAll h stamp es) e.1 e.2 := by
  simp [appendAll]

theorem uniqueKey_appendAll (es : List (T × Int)) : UniqueKey Bucket.pk (appendAll h stamp es) := by
  induction es using reverseRecOn with
  | nil => exact nodup_nil
  | append_singleton es e ih =>
    rw [appendAll_concat]
    exact uniqueKey_appendLevels _ ih

variable {level : Nat}

/-- The buckets of a level hold the appended values, by the stamp of their bucket. -/
theorem sum_rangeLevel_appendAll (hl : level < h.levels) (es : List (T × Int)) (lo hi : K) :
    ((appendAll h stamp es).rangeLevel level lo hi).sum
      = windowSum es (fun t => stamp ((h.grain level).truncate t)) lo hi := by
  rw [Buckets.sum_rangeLevel]
  induction es using reverseRecOn with
  | nil => rfl
  | append_singleton es e ih =>
    rw [appendAll_concat, append, sum_appendLevels _ nodup_range (uniqueKey_appendAll es),
      ih, windowSum_append, windowSum_cons, windowSum_nil, add_zero]
    simp [hl]

/-- What `append` puts into a bucket: the value on top of what was there. -/
theorem get_appendLevels {l : Nat} {st : K} (ls : List Nat) (hnd : ls.Nodup) :
    (appendLevels h stamp v t ls s).get l st
      = if l ∈ ls ∧ stamp ((h.grain l).truncate t) = st then some ((s.get l st).getD 0 + v)
        else s.get l st := by
  unfold appendLevels
  induction ls generalizing s with
  | nil => simp
  | cons k ls ih =>
    rw [nodup_cons] at hnd
    rw [foldl_cons, ih hnd.2, Buckets.get_put]
    by_cases hkl : k = l
    · -- the level comes once
      subst hkl
      by_cases hst : stamp ((h.grain k).truncate t) = st
      · simp [hnd.1, hst]
      · simp [hst]
    · simp [hkl, Ne.symm hkl]

/-- There are no buckets past the last level. -/
theorem get_appendAll_of_le (hl : h.levels ≤ level) (es : List (T × Int)) (st : K) :
    (appendAll h stamp es).get level st = none := by
  induction es using reverseRecOn with
  | nil => rfl
  | append_singleton es e ih =>
    rw [appendAll_concat, append, get_appendLevels _ nodup_range, ih, if_neg]
    rintro ⟨hmem, -⟩
    exact absurd (mem_range.mp hmem) (not_lt.mpr hl)

/-- The values that went into a bucket. -/
def bucketValues (h : Hierarchy) (stamp : Int → K) (es : List (T × Int)) (level : Nat) (st : K) :
    List T :=
  (es.filter fun e => stamp ((h.grain level).truncate e.2) = st).map Prod.fst

/-- **A bucket holds the sum of the values that went into it**, and there is none for no
values. -/
theorem get_appendAll (hl : level < h.levels) (es : List (T × Int)) (st : K) :
    (appendAll h stamp es).get level st
      = if bucketValues h stamp es level st = [] then none
        else some (bucketValues h stamp es level st).sum := by
  induction es using reverseRecOn with
  | nil => rfl
  | append_singleton es e ih =>
    have hvalues : bucketValues h stamp (es ++ [e]) level st
        = bucketValues h stamp es level st
          ++ if stamp ((h.grain level).truncate e.2) = st then [e.1] else [] := by
      unfold bucketValues
      by_cases hst : stamp ((h.grain level).truncate e.2) = st <;> simp [hst]
    rw [appendAll_concat, append, get_appendLevels _ nodup_range, ih, hvalues]
    by_cases hst : stamp ((h.grain level).truncate e.2) = st
    · by_cases hnil : bucketValues h stamp es level st = []
      · simp [hl, hst, hnil]
      · simp [hl, hst, hnil]
    · simp [hst]

/-- On the window `[lo, hi]` the stamps keep the order of instants, and of the bucket
starts in `dom`, those stamped between two bucket starts of the window lie between them. -/
structure Faithful (stamp : Int → K) (g : Grain) (dom : Int → Prop) (lo hi : Int) : Prop where
  mono : ∀ s t, lo ≤ s → s ≤ t → t ≤ hi → stamp s ≤ stamp t
  between : ∀ s t b, g.truncate s = s → g.truncate t = t → g.truncate b = b → dom b →
    lo ≤ s → s ≤ t → t ≤ hi → ((stamp s ≤ stamp b ∧ stamp b < stamp t) ↔ (s ≤ b ∧ b < t))

theorem foldl_add_eq (xs : List T) (acc : T) : xs.foldl (· + ·) acc = acc + xs.sum := by
  conv_lhs => rw [← add_zero acc]
  rw [sum_eq_foldl]
  exact foldl_assoc

variable {es : List (T × Int)}

/-- Whole buckets of any level hold what the finest buckets in their place hold. -/
theorem windowSum_level (hv : h.Valid) {lo hi a b : Int}
    (hf : Faithful stamp (h.grain h.root) dom lo hi) (hl : level < h.levels)
    (ha : (h.grain level).truncate a = a) (hb : (h.grain level).truncate b = b) (hlo : lo ≤ a)
    (hab : a ≤ b) (hhi : b ≤ hi) (hdom : ∀ e ∈ es, ∀ l < h.levels, dom ((h.grain l).truncate e.2)) :
    windowSum es (fun t => stamp ((h.grain level).truncate t)) (stamp a) (stamp b)
      = windowSum es (fun t => stamp ((h.grain h.root).truncate t)) (stamp a) (stamp b) := by
  have htile := hv.tiles level hl
  have hroot := hv.tiles h.root hv.root_lt
  have hnest := hv.nests_root hl
  have ha' : (h.grain h.root).truncate a = a := by rw [← ha, hnest]
  have hb' : (h.grain h.root).truncate b = b := by rw [← hb, hnest]
  -- both sides say that the instant of `e` lies between `a` and `b`
  refine windowSum_congr fun e he => ?_
  rw [hf.between a b _ ha' hb' (hnest e.2) (hdom e he _ hl) hlo hab hhi,
    hf.between a b _ ha' hb' (hroot.idem e.2) (hdom e he _ hv.root_lt) hlo hab hhi,
    htile.le_trunc_iff ha, htile.trunc_lt_iff hb, hroot.le_trunc_iff ha', hroot.trunc_lt_iff hb']

/-- The root is scanned as it is. -/
theorem foldl_rangeLevel_root (hv : h.Valid) (hl : level < h.levels)
    (hp : h.parentOf level = none) (es : List (T × Int)) (a b : Int) (acc : T) :
    ((appendAll h stamp es).rangeLevel level (stamp a) (stamp b)).foldl (· + ·) acc
      = acc + windowSum es (fun t => stamp ((h.grain h.root).truncate t)) (stamp a) (stamp b) := by
  rw [foldl_add_eq, sum_rangeLevel_appendAll hl, hv.root_unique level hl hp]

/-- From any level, the fold of a window sums the finest buckets stamped inside it. -/
theorem foldRangeAt_appendAll (hv : h.Valid) {lo hi : Int}
    (hf : Faithful stamp (h.grain h.root) dom lo hi)
    (hdom : ∀ e ∈ es, ∀ l < h.levels, dom ((h.grain l).truncate e.2)) (fuel level : Nat)
    (hl : level < h.levels) (hr : h.reaches fuel level = true) {a b : Int} (hlo : lo ≤ a)
    (hab : a ≤ b) (hhi : b ≤ hi) (acc : T) :
    foldRangeAt h stamp (appendAll h stamp es) fuel level a b acc
      = acc + windowSum es (fun t => stamp ((h.grain h.root).truncate t)) (stamp a) (stamp b) := by
  -- on the fuel; `reaches` says that it lasts to the root
  induction fuel generalizing level a b acc with
  | zero => exact foldl_rangeLevel_root hv hl (by simpa [Hierarchy.reaches] using hr) ..
  | succ fuel ih =>
    unfold foldRangeAt
    rcases hp : h.parentOf level with _ | child
    · exact foldl_rangeLevel_root hv hl hp ..
    simp only [Hierarchy.reaches, hp, Bool.and_eq_true, decide_eq_true_eq] at hr
    obtain ⟨hchild, hr⟩ := hr
    have htile := hv.tiles level hl
    dsimp only
    have hlo' := htile.le_ceil a
    have hhi' := htile.trunc_le b
    generalize hA : ceil (h.grain level).truncate (h.grain level).next a = a' at *
    generalize hB : (h.grain level).truncate b = b' at *
    have ha' : (h.grain level).truncate a' = a' := hA ▸ htile.trunc_ceil a
    have hb' : (h.grain level).truncate b' = b' := hB ▸ htile.idem b
    split
    next hwhole =>
      have hlead : (if a < a' then foldRangeAt h stamp (appendAll h stamp es) fuel child a a' acc
          else acc) = acc + windowSum es (fun t => stamp ((h.grain h.root).truncate t))
            (stamp a) (stamp a') := by
        split
        · exact ih child hchild hr hlo hlo' (by omega) acc
        · rw [show a' = a by omega, windowSum_of_le le_rfl, add_zero]
      have htrail : ∀ acc : T, (if b' < b then
          foldRangeAt h stamp (appendAll h stamp es) fuel child b' b acc else acc)
            = acc + windowSum es (fun t => stamp ((h.grain h.root).truncate t))
              (stamp b') (stamp b) := by
        intro acc
        split
        · exact ih child hchild hr (by omega) hhi' hhi acc
        · rw [show b' = b by omega, windowSum_of_le le_rfl, add_zero]
      rw [hlead, htrail, foldl_add_eq, sum_rangeLevel_appendAll hl,
        windowSum_level hv hf hl ha' hb' (by omega) (by omega) (by omega) hdom, add_assoc,
        add_assoc,
        windowSum_split (hf.mono _ _ (by omega) (by omega) (by omega))
          (hf.mono _ _ (by omega) (by omega) (by omega)),
        windowSum_split (hf.mono _ _ (by omega) (by omega) (by omega))
          (hf.mono _ _ (by omega) (by omega) (by omega))]
    · -- no whole bucket: the finer level takes the window as it is
      exact ih child hchild hr hlo hab hhi acc

/-- **The cascade is exact**: `foldRange` returns the sum of the appended values whose
finest bucket is stamped inside the window. -/
theorem foldRange_appendAll (hv : h.Valid) {lo hi : Int} (hle : lo ≤ hi)
    (hf : Faithful stamp (h.grain h.root) dom lo hi)
    (hdom : ∀ e ∈ es, ∀ l < h.levels, dom ((h.grain l).truncate e.2)) :
    foldRange h stamp (appendAll h stamp es) lo hi
      = windowSum es (fun t => stamp ((h.grain h.root).truncate t)) (stamp lo) (stamp hi) := by
  unfold foldRange
  have hleaf := Hierarchy.coarsestLeafFor_lt hv lo hi
  split
  · rw [foldRangeAt_appendAll hv hf hdom _ _ hleaf (hv.reaches _ hleaf) le_rfl hle le_rfl, zero_add]
  · rw [show hi = lo by omega, windowSum_of_le le_rfl]

end Engine

end Xolu.Chronicle
