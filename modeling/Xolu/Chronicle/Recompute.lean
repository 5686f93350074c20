/-
# Recomputation (pkg/chronicle/engine.go)

`Recompute` deletes the buckets of every level from the one that holds the start of a window up to
its end, and appends the source values of the window again.  The window is a bucket of the coarsest
leaf.  A bucket of another level that the window cuts is deleted with what it holds from outside,
which does not come back.
-/
import Xolu.Chronicle.Build

namespace Xolu.Chronicle

open List Hierarchy

/-- The starts that stepping from `start` comes to before `hi`. -/
def Grain.starts (g : Grain) (hi : Int) : Nat → Int → List Int
  | 0, _ => []
  | fuel + 1, start => if start < hi then start :: g.starts hi fuel (g.next start) else []

namespace Hierarchy

variable (h : Hierarchy) (t : Int)

/-- The leaf with the longest bucket at `t`; a tie keeps the earlier one. -/
def coarsestLevel : Nat :=
  let width l := (h.grain l).next ((h.grain l).truncate t) - (h.grain l).truncate t
  h.leaves.tail.foldl (fun best l => if width best < width l then l else best) (h.leaves.headD 0)

/-- The start and the end of the window. -/
def lo : Int := (h.grain (h.coarsestLevel t)).truncate t

def hi : Int := (h.grain (h.coarsestLevel t)).next (h.lo t)

/-- The buckets of a level that the window is stepped through with.  Steps go forward, so there are
no more of them than instants. -/
def stepped (l : Nat) : List Int :=
  let start := (h.grain l).truncate (h.lo t)
  (h.grain l).starts (h.hi t) (h.hi t - start).toNat start

/-- `Recompute`. -/
def recompute {T : Type} [AddCommMonoid T] (s : Buckets Int T)
    (replay : Int → Int → List (T × Int)) : Buckets Int T :=
  ((replay (h.lo t) (h.hi t)).filter fun e => h.lo t ≤ e.2 ∧ e.2 < h.hi t).foldl
    (fun s e => append h id s e.1 e.2)
    (s.filter fun b => ¬ (b.level < h.levels ∧ b.start ∈ h.stepped t b.level))

end Hierarchy

variable {T : Type} [AddCommMonoid T] {h : Hierarchy} {t : Int} {l : Nat} {st : Int}

theorem getD_foldl_append (hl : l < h.levels) (es : List (T × Int)) (s : Buckets Int T) :
    ((es.foldl (fun s e => append h id s e.1 e.2) s).get l st).getD 0 =
      (s.get l st).getD 0 + (bucketValues h id es l st).sum := by
  induction es generalizing s with
  | nil => exact (add_zero _).symm
  | cons e es ih =>
    rw [foldl_cons, ih, append, get_appendLevels _ nodup_range]
    by_cases hst : (h.grain l).truncate e.2 = st
    · simp [bucketValues, hl, hst, add_assoc]
    · simp [bucketValues, hst]

theorem getD_filter (hl : l < h.levels) (s : Buckets Int T) :
    (Buckets.get (s.filter fun b => ¬ (b.level < h.levels ∧ b.start ∈ h.stepped t b.level)) l
      st).getD 0 = if st ∈ h.stepped t l then 0 else (s.get l st).getD 0 := by
  have hkept : ∀ b : Bucket Int T, b.pk = (l, st) →
      (¬ (b.level < h.levels ∧ b.start ∈ h.stepped t b.level) ↔ st ∉ h.stepped t l) := by
    rintro b hb
    cases hb
    rw [and_iff_right hl]
  unfold Buckets.get
  rw [find?_filter]
  split_ifs with hst
  · rw [find?_eq_none.mpr]
    · rfl
    · simp only [decide_eq_true_eq, beq_iff_eq]
      exact fun b _ hb => (hkept b hb.2).mp hb.1 hst
  · refine congrArg (fun p => ((s.find? p).map Bucket.value).getD 0) (funext fun b => ?_)
    rw [Bool.eq_iff_iff]
    simp only [decide_eq_true_eq, beq_iff_eq]
    exact ⟨And.right, fun hb => ⟨(hkept b hb).mpr hst, hb⟩⟩

/-- What a bucket holds afterwards. -/
theorem getD_recompute (hl : l < h.levels) {es : List (T × Int)}
    {replay : Int → Int → List (T × Int)}
    (hreplay : ∀ lo hi, (replay lo hi).Perm (es.filter fun e => lo ≤ e.2 ∧ e.2 < hi)) :
    ((h.recompute t (appendAll h id es) replay).get l st).getD 0 =
      (if st ∈ h.stepped t l then 0 else (bucketValues h id es l st).sum) +
        (bucketValues h id (es.filter fun e => h.lo t ≤ e.2 ∧ e.2 < h.hi t) l st).sum := by
  rw [recompute, getD_foldl_append hl, getD_filter hl, appendAll, getD_foldl_append hl]
  congr 1
  · exact if_congr .rfl rfl (zero_add _)
  · have hwindow := (hreplay (h.lo t) (h.hi t)).filter fun e => h.lo t ≤ e.2 ∧ e.2 < h.hi t
    simp only [filter_filter, Bool.and_self] at hwindow
    exact ((hwindow.filter _).map _).sum_eq

/-- **Recomputation repairs** just where, at every level, the window is stepped through with the
buckets of its instants and no others. -/
theorem recompute_repairs_iff (h : Hierarchy) (t : Int) :
    (∀ (T : Type) [AddCommMonoid T] (es : List (T × Int)) (replay : Int → Int → List (T × Int)),
      (∀ lo hi, (replay lo hi).Perm (es.filter fun e => lo ≤ e.2 ∧ e.2 < hi)) →
      ∀ l < h.levels, ∀ st, ((h.recompute t (appendAll h id es) replay).get l st).getD 0 =
        (bucketValues h id es l st).sum) ↔
    ∀ l < h.levels, ∀ x, (h.grain l).truncate x ∈ h.stepped t l ↔ h.lo t ≤ x ∧ x < h.hi t := by
  constructor
  · intro hrepairs l hl x
    have hone := hrepairs Int [(1, x)] (fun lo hi => [(1, x)].filter fun e => lo ≤ e.2 ∧ e.2 < hi)
      (fun _ _ => .refl _) l hl ((h.grain l).truncate x)
    rw [getD_recompute hl fun _ _ => .refl _] at hone
    by_cases hx : h.lo t ≤ x ∧ x < h.hi t
    · simpa [bucketValues, hx] using hone
    · simpa [bucketValues, hx] using hone
  · intro haligned T _ es replay hreplay l hl st
    rw [getD_recompute hl hreplay]
    unfold bucketValues
    rw [filter_filter]
    split_ifs with hst
    · rw [zero_add, filter_congr]
      intro e _
      rw [Bool.and_eq_left_iff_imp, decide_eq_true_eq, decide_eq_true_eq]
      rintro rfl
      exact (haligned l hl e.2).mp hst
    · convert add_zero _ using 2
      rw [filter_eq_nil_iff.mpr]
      · rfl
      · simp only [Bool.and_eq_true, decide_eq_true_eq]
        rintro e _ ⟨rfl, hx⟩
        exact hst ((haligned l hl e.2).mpr hx)

/-! ### The grains of the package -/

/-- The loop comes to the boundaries before `hi`. -/
theorem mem_starts {g : Grain} (hg : g.Standard) {hi start b : Int} {fuel : Nat}
    (hstart : g.truncate start = start) (hfuel : (hi - start).toNat ≤ fuel) :
    b ∈ g.starts hi fuel start ↔ start ≤ b ∧ b < hi ∧ g.truncate b = b := by
  induction fuel generalizing start with
  | zero => exact iff_of_false not_mem_nil (by omega)
  | succ fuel ih =>
    have hlt := hg.tiles.lt_next start
    have hnext := hg.tiles.trunc_next start
    rw [hstart] at hlt hnext
    rw [Grain.starts]
    split_ifs with hhi
    · rw [mem_cons, ih hnext (by omega)]
      constructor
      · rintro (rfl | ⟨hle, hb⟩)
        · exact ⟨le_rfl, hhi, hstart⟩
        · exact ⟨hlt.le.trans hle, hb⟩
      · rintro ⟨hle, hb, htrunc⟩
        rcases hle.eq_or_lt with rfl | hlt
        · exact .inl rfl
        · exact .inr ⟨hg.next_le hstart htrunc hlt, hb, htrunc⟩
    · exact iff_of_false not_mem_nil (by omega)

theorem coarsestLevel_lt (hlevels : 0 < h.levels) : h.coarsestLevel t < h.levels := by
  have hleaf : ∀ l ∈ h.leaves, l < h.levels := fun l hl => mem_range.mp (mem_filter.mp hl).1
  unfold coarsestLevel
  cases hleaves : h.leaves with
  | nil => exact hlevels
  | cons first rest =>
    rw [hleaves, forall_mem_cons] at hleaf
    refine foldlRecOn (motive := (· < h.levels)) rest _ hleaf.1 fun best hbest l hl => ?_
    dsimp only
    split
    · exact hleaf.2 l hl
    · exact hbest

/-- For the grains of the package the condition says that, at every level, both ends of the
window are bucket starts. -/
theorem window_aligned_iff (hg : ∀ l < h.levels, (h.grain l).Standard) :
    (∀ l < h.levels, ∀ x, (h.grain l).truncate x ∈ h.stepped t l ↔ h.lo t ≤ x ∧ x < h.hi t) ↔
      ∀ l < h.levels, (h.grain l).truncate (h.lo t) = h.lo t ∧
        (h.grain l).truncate (h.hi t) = h.hi t := by
  refine forall₂_congr fun l hl => ?_
  have htiles := (hg l hl).tiles
  have hwindow : h.lo t < h.hi t :=
    have hcoarsest := (hg _ (coarsestLevel_lt (t := t) (Nat.zero_lt_of_lt hl))).tiles
    (hcoarsest.trunc_le t).trans_lt (hcoarsest.lt_next t)
  have hmem : ∀ x, (h.grain l).truncate x ∈ h.stepped t l ↔
      (h.grain l).truncate (h.lo t) ≤ (h.grain l).truncate x ∧ (h.grain l).truncate x < h.hi t := by
    intro x
    rw [stepped, mem_starts (hg l hl) (htiles.idem _) le_rfl, htiles.idem, eq_self, and_true]
  simp only [hmem]
  constructor
  · intro haligned
    have hlo := (haligned ((h.grain l).truncate (h.lo t))).mp (by
      rw [htiles.idem]
      exact ⟨le_rfl, (htiles.trunc_le _).trans_lt hwindow⟩)
    refine ⟨le_antisymm (htiles.trunc_le _) hlo.1, le_antisymm (htiles.trunc_le _) ?_⟩
    by_contra hcut
    exact ((haligned (h.hi t)).mp ⟨htiles.mono hwindow.le, not_le.mp hcut⟩).2.false
  · rintro ⟨hlo, hhi⟩ x
    rw [hlo, htiles.le_trunc_iff hlo, htiles.trunc_lt_iff hhi]

/-- A value on January 2 of 2025 is in the week of December 30, which goes when 2024 is
recomputed. -/
theorem recompute_loses_week :
    let es : List (Int × Int) := [(5, 1735776000000000000)]
    let replay lo hi := es.filter fun e => lo ≤ e.2 ∧ e.2 < hi
    newTreeHierarchy balHierarchy = .ok balTree ∧
      bucketValues balTree id es 2 1735516800000000000 = [5] ∧
      (balTree.recompute 1706745600000000000 (appendAll balTree id es) replay).get 2
        1735516800000000000 = none :=
  ⟨newTreeHierarchy_balHierarchy, by decide +kernel, by decide +kernel⟩

end Xolu.Chronicle
