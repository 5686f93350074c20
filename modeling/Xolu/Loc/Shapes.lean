/-
# Circles and polygons (pkg/loc/geometry.go)

A circle contains the points at most its radius away, by the haversine formula; its box converts
the radius to degrees by a constant of 111320 metres, while a degree of latitude on the sphere of
that formula has less.  A polygon contains the points of which a ray to the east crosses its edges
an odd number of times; an axis-aligned rectangle is its box.

In exact arithmetic the box of a polygon covers it (`Polygon.overlaps_of_contains`): an edge that
is crossed is crossed between its ends, and west of the box all edges that pass the latitude are
crossed, which are evenly many since the polygon is closed.  The box of a circle need not.
-/
import Xolu.Loc.Placement
import Mathlib.Analysis.Real.Pi.Bounds

namespace Xolu.Loc

open Box Math

structure Point (F : Type) where
  lat : F
  lon : F

structure Circle (F : Type) where
  centerLat : F
  centerLon : F
  radiusMeters : F

/-- `Polygon`; the edge back to the first vertex is implicit. -/
structure Polygon (F : Type) where
  vertices : List (Point F)

/-- The shapes that `SetFenceGeometry` takes. -/
inductive Shape (F : Type) where
  | circle (c : Circle F)
  | polygon (p : Polygon F)

/-- What `orientation` returns. -/
inductive Orientation where
  | collinear
  | clockwise
  | counterclockwise
deriving DecidableEq, Repr

section

variable {F : Type} [Add F] [Sub F] [Mul F] [Div F] [Neg F] [LT F] [DecidableLT F] [LE F]
  [DecidableLE F] [BEq F] [Math F]

open Math

/-! ### Circles -/

def earthRadiusMeters : F := ofNat 6371000

def haversineMeters (lat1 lon1 lat2 lon2 : F) : F :=
  let phi1 := lat1 * pi / ofNat 180
  let phi2 := lat2 * pi / ofNat 180
  let dPhi := (lat2 - lat1) * pi / ofNat 180
  let dLambda := (lon2 - lon1) * pi / ofNat 180
  let a := sin (dPhi / ofNat 2) * sin (dPhi / ofNat 2) +
    cos phi1 * cos phi2 * sin (dLambda / ofNat 2) * sin (dLambda / ofNat 2)
  let c := ofNat 2 * atan2 (sqrt a) (sqrt (ofNat 1 - a))
  earthRadiusMeters * c

variable (c : Circle F)

/-- `Contains` of a circle. -/
def Circle.contains (lat lon : F) : Bool :=
  decide (haversineMeters c.centerLat c.centerLon lat lon ≤ c.radiusMeters)

/-- `math.Abs`. -/
def fabs (x : F) : F := if x < ofNat 0 then -x else x

/-- Half the height of the box of a circle. -/
def Circle.dLat : F := c.radiusMeters / metresPerDegreeLat

/-- Half the width of the box of a circle. -/
def Circle.dLon : F :=
  let metresPerDegreeLon := metresPerDegreeLat * cos (c.centerLat * pi / ofNat 180)
  fabs (safeLongitudeDelta c.radiusMeters metresPerDegreeLon)

/-- `BoundingBox` of a circle. -/
def Circle.boundingBox : Box F where
  minLat := c.centerLat - c.dLat
  minLon := c.centerLon - c.dLon
  maxLat := c.centerLat + c.dLat
  maxLon := c.centerLon + c.dLon

/-! ### Polygons -/

instance : BEq (Point F) where
  beq a b := a.lat == b.lat && a.lon == b.lon

/-- The body of the loops that take bounds. -/
def Box.grow (b : Box F) (v : Point F) : Box F where
  minLat := if v.lat < b.minLat then v.lat else b.minLat
  maxLat := if b.maxLat < v.lat then v.lat else b.maxLat
  minLon := if v.lon < b.minLon then v.lon else b.minLon
  maxLon := if b.maxLon < v.lon then v.lon else b.maxLon

/-- The bounds of a first vertex and of others. -/
def bounds (v : Point F) (vs : List (Point F)) : Box F := vs.foldl grow ⟨v.lat, v.lon, v.lat, v.lon⟩

variable (p : Polygon F)

/-- `BoundingBox` of a polygon. -/
def Polygon.boundingBox : Box F :=
  match p.vertices with
  | [] => ⟨ofNat 0, ofNat 0, ofNat 0, ofNat 0⟩
  | v :: vs => bounds v vs

/-- An edge is purely horizontal or purely vertical. -/
def axisAligned (a b : Point F) : Bool := (a.lat == b.lat) != (a.lon == b.lon)

/-- The vertices of a polygon, without a fifth that is the first again. -/
def Polygon.fourVertices : List (Point F) :=
  match p.vertices with
  | [a, b, c, d, e] => if a == e then [a, b, c, d] else [a, b, c, d, e]
  | vs => vs

def axisAlignedRectangleBounds : Option (Box F) :=
  match p.fourVertices with
  | [a, b, c, d] =>
    if axisAligned a b && axisAligned b c && axisAligned c d && axisAligned d a then
      some (bounds a [b, c, d])
    else none
  | _ => none

/-- The edge passes the latitude to the east of the point. -/
def crossed (lat lon : F) (vj vi : Point F) : Bool :=
  (decide (lat < vi.lat) != decide (lat < vj.lat)) &&
    decide (lon < (vj.lon - vi.lon) * (lat - vi.lat) / (vj.lat - vi.lat) + vi.lon)

/-- The loop of `Contains` over the vertices, after `vj`. -/
def crossLoop (lat lon : F) : Point F → List (Point F) → Bool → Bool
  | _, [], inside => inside
  | vj, vi :: vs, inside => crossLoop lat lon vi vs (inside ^^ crossed lat lon vj vi)

/-- `Contains` of a polygon. -/
def Polygon.contains (lat lon : F) : Bool :=
  match axisAlignedRectangleBounds p with
  | some b => b.overlaps lat lon
  | none =>
    if p.vertices.length < 3 then false
    else p.vertices.getLast?.any fun vj => crossLoop lat lon vj p.vertices false

def orientation (p q r : Point F) : Orientation :=
  let val := (q.lon - p.lon) * (r.lat - q.lat) - (q.lat - p.lat) * (r.lon - q.lon)
  if val == ofNat 0 then .collinear
  else if ofNat 0 < val then .clockwise
  else .counterclockwise

/-- `math.Max` of two numbers. -/
def fmax (a b : F) : F := if a < b then b else a

/-- `math.Min` of two numbers. -/
def fmin (a b : F) : F := if b < a then b else a

def onSegment (p q r : Point F) : Bool :=
  decide (q.lat ≤ fmax p.lat r.lat) && decide (fmin p.lat r.lat ≤ q.lat) &&
    decide (q.lon ≤ fmax p.lon r.lon) && decide (fmin p.lon r.lon ≤ q.lon)

def segmentsIntersect (p1 p2 p3 p4 : Point F) : Bool :=
  let o1 := orientation p1 p2 p3
  let o2 := orientation p1 p2 p4
  let o3 := orientation p3 p4 p1
  let o4 := orientation p3 p4 p2
  (decide (o1 ≠ o2) && decide (o3 ≠ o4)) ||
    (decide (o1 = .collinear) && onSegment p1 p3 p2) ||
    (decide (o2 = .collinear) && onSegment p1 p4 p2) ||
    (decide (o3 = .collinear) && onSegment p3 p1 p4) ||
    (decide (o4 = .collinear) && onSegment p3 p2 p4)

/-- The vertex at an index. -/
def Polygon.vertex (i : Nat) : Point F := p.vertices.getD i ⟨ofNat 0, ofNat 0⟩

def Polygon.selfIntersects : Bool :=
  let n := p.vertices.length
  if n < 4 then false
  else
    (List.range n).any fun i => (List.range n).any fun j =>
      -- edges that share a vertex are left out
      decide (i < j ∧ ¬ (j = (i + 1) % n ∨ (j + 1) % n = i)) &&
        segmentsIntersect (p.vertex i) (p.vertex ((i + 1) % n)) (p.vertex j)
          (p.vertex ((j + 1) % n))

/-- Circles and polygons as the shapes of fences. -/
instance : Geometry F (Shape F) where
  fault
    | .circle c => if c.radiusMeters < ofNat 0 then some .negativeRadius else none
    | .polygon p => if p.selfIntersects then some .selfIntersecting else none
  boundingBox
    | .circle c => c.boundingBox
    | .polygon p => p.boundingBox
  contains
    | .circle c => c.contains
    | .polygon p => p.contains

end

/-! ### Bounds in exact arithmetic -/

section

variable {b b' : Box ℝ} {v w : Point ℝ} {vs : List (Point ℝ)} {lat lon : ℝ}

theorem Box.overlaps_iff : b.overlaps lat lon = true ↔
    b.minLat ≤ lat ∧ lat ≤ b.maxLat ∧ b.minLon ≤ lon ∧ lon ≤ b.maxLon := by
  simp [overlaps, and_assoc]

/-- The box reaches no further than another on any side. -/
structure Box.Within (b b' : Box ℝ) : Prop where
  minLat : b'.minLat ≤ b.minLat
  maxLat : b.maxLat ≤ b'.maxLat
  minLon : b'.minLon ≤ b.minLon
  maxLon : b.maxLon ≤ b'.maxLon

theorem Box.Within.overlaps (h : b.Within b') (hb : b.overlaps lat lon = true) :
    b'.overlaps lat lon = true := by
  rw [overlaps_iff] at hb ⊢
  exact ⟨h.minLat.trans hb.1, hb.2.1.trans h.maxLat, h.minLon.trans hb.2.2.1,
    hb.2.2.2.trans h.maxLon⟩

theorem Box.grow_eq (b : Box ℝ) (v : Point ℝ) : b.grow v =
    ⟨min v.lat b.minLat, min v.lon b.minLon, max v.lat b.maxLat, max v.lon b.maxLon⟩ := by
  unfold grow
  congr 1
  · exact (min_def_lt ..).symm
  · exact (min_def_lt ..).symm
  · rw [max_comm, max_def_lt]
  · rw [max_comm, max_def_lt]

/-- Growing by vertices gives the least box around the box before and the vertices. -/
theorem Box.foldl_grow_within_iff :
    (vs.foldl grow b).Within b' ↔ b.Within b' ∧ ∀ v ∈ vs, b'.overlaps v.lat v.lon = true := by
  induction vs generalizing b with
  | nil => simp
  | cons v vs ih =>
    rw [List.foldl_cons, ih, List.forall_mem_cons, ← and_assoc]
    refine and_congr_left fun _ => ?_
    rw [grow_eq, overlaps_iff]
    constructor
    · rintro ⟨h₁, h₂, h₃, h₄⟩
      rw [le_min_iff] at h₁ h₃
      rw [max_le_iff] at h₂ h₄
      exact ⟨⟨h₁.2, h₂.2, h₃.2, h₄.2⟩, h₁.1, h₂.1, h₃.1, h₄.1⟩
    · rintro ⟨⟨h₁, h₂, h₃, h₄⟩, h₁', h₂', h₃', h₄'⟩
      exact ⟨le_min h₁' h₁, max_le h₂' h₂, le_min h₃' h₃, max_le h₄' h₄⟩

/-- The bounds are the least box around the vertices. -/
theorem bounds_within_iff : (bounds v vs).Within b ↔
    ∀ w ∈ v :: vs, b.overlaps w.lat w.lon = true := by
  rw [bounds, foldl_grow_within_iff, List.forall_mem_cons, overlaps_iff]
  refine and_congr_left fun _ => ?_
  exact ⟨fun h => ⟨h.minLat, h.maxLat, h.minLon, h.maxLon⟩, fun h => ⟨h.1, h.2.1, h.2.2.1, h.2.2.2⟩⟩

theorem overlaps_bounds (h : w ∈ v :: vs) : (bounds v vs).overlaps w.lat w.lon = true :=
  bounds_within_iff.mp ⟨le_rfl, le_rfl, le_rfl, le_rfl⟩ w h

/-! ### The box of a polygon -/

variable {vj : Point ℝ} {sign : Point ℝ → Bool} {S : Point ℝ → Prop}

/-- Edges that are crossed if and only if a sign changes along them cross as often as it does. -/
theorem crossLoop_of_sign (h : ∀ vj vi, S vj → S vi → crossed lat lon vj vi = (sign vi ^^ sign vj))
    (hvj : S vj) (hvs : ∀ v ∈ vs, S v) (inside : Bool) : crossLoop lat lon vj vs inside =
      (inside ^^ (sign vj ^^ sign ((vj :: vs).getLast (List.cons_ne_nil _ _)))) := by
  induction vs generalizing vj inside with
  | nil => simp [crossLoop]
  | cons vi vs ih =>
    rw [List.forall_mem_cons] at hvs
    rw [crossLoop, ih hvs.1 hvs.2, h vj vi hvj hvs.1, List.getLast_cons (List.cons_ne_nil _ _)]
    generalize sign vi = a
    generalize sign vj = b
    cases inside <;> cases a <;> cases b <;> simp

/-- A closed chain of such edges crosses evenly often. -/
theorem crossLoop_closed (h : ∀ vj vi, S vj → S vi → crossed lat lon vj vi = (sign vi ^^ sign vj))
    (hlast : vj ∈ vs.getLast?) (hvs : ∀ v ∈ vs, S v) : crossLoop lat lon vj vs false = false := by
  have hvj := hvs vj (List.mem_of_getLast? hlast)
  rw [crossLoop_of_sign h hvj hvs]
  have hback : (vj :: vs).getLast (List.cons_ne_nil _ _) = vj := by
    have hcons : (vj :: vs).getLast? = some vj := by
      rw [List.getLast?_cons, Option.mem_def.mp hlast, Option.getD_some]
    exact Option.some.inj ((List.getLast?_eq_some_getLast _).symm.trans hcons)
  rw [hback, Bool.xor_self, Bool.xor_false]

/-- The longitude at which an edge passes a latitude. -/
theorem crossing_between {vi : Point ℝ} {lo hi : ℝ}
    (hpass : decide (lat < vi.lat) ≠ decide (lat < vj.lat)) (hi₁ : lo ≤ vi.lon) (hi₂ : vi.lon ≤ hi)
    (hj₁ : lo ≤ vj.lon) (hj₂ : vj.lon ≤ hi) :
    let atLon := (vj.lon - vi.lon) * (lat - vi.lat) / (vj.lat - vi.lat) + vi.lon
    lo ≤ atLon ∧ atLon ≤ hi := by
  -- the point divides the edge in a ratio between zero and one
  have hratio : 0 ≤ (lat - vi.lat) / (vj.lat - vi.lat) ∧
      (lat - vi.lat) / (vj.lat - vi.lat) ≤ 1 := by
    by_cases hlt : lat < vi.lat
    · have hj : vj.lat ≤ lat := by
        by_contra! hj
        exact hpass (by simp [hlt, hj])
      refine ⟨div_nonneg_of_nonpos (by linarith) (by linarith), ?_⟩
      rw [div_le_one_of_neg (by linarith)]
      linarith
    · have hj : lat < vj.lat := by
        by_contra! hj
        exact hpass (by simp [hlt, hj])
      refine ⟨div_nonneg (by linarith) (by linarith), ?_⟩
      rw [div_le_one (by linarith)]
      linarith
  generalize hs : (lat - vi.lat) / (vj.lat - vi.lat) = s at hratio
  intro atLon
  have hat : atLon = (1 - s) * vi.lon + s * vj.lon := by
    rw [← hs]
    ring
  constructor <;> nlinarith

/-- Off a box around the vertices, the edges that are crossed are none, or all that pass the
latitude. -/
theorem exists_sign_of_not_overlaps (h : b.overlaps lat lon = false) :
    ∃ sign : Point ℝ → Bool, ∀ vj vi : Point ℝ, b.overlaps vj.lat vj.lon = true →
      b.overlaps vi.lat vi.lon = true → crossed lat lon vj vi = (sign vi ^^ sign vj) := by
  simp only [← Bool.not_eq_true, overlaps_iff, not_and_or, not_le] at h
  simp only [overlaps_iff]
  rcases h with hlat | hlat | hlon | hlon
  · -- all vertices are to the north
    refine ⟨fun _ => false, fun vj vi hj hi => ?_⟩
    simp [crossed, hlat.trans_le hj.1, hlat.trans_le hi.1]
  · -- none is
    refine ⟨fun _ => false, fun vj vi hj hi => ?_⟩
    simp [crossed, (hj.2.1.trans hlat.le).not_gt, (hi.2.1.trans hlat.le).not_gt]
  · -- west of the box, what passes the latitude is crossed
    refine ⟨fun v => decide (lat < v.lat), fun vj vi hj hi => ?_⟩
    by_cases hpass : decide (lat < vi.lat) = decide (lat < vj.lat)
    · simp [crossed, hpass]
    · have hat := (crossing_between hpass hi.2.2.1 hi.2.2.2 hj.2.2.1 hj.2.2.2).1
      simp only [crossed, decide_eq_true (hlon.trans_le hat), Bool.and_true]
  · -- east of it, nothing is
    refine ⟨fun _ => false, fun vj vi hj hi => ?_⟩
    by_cases hpass : decide (lat < vi.lat) = decide (lat < vj.lat)
    · simp [crossed, hpass]
    · have hat := (crossing_between hpass hi.2.2.1 hi.2.2.2 hj.2.2.1 hj.2.2.2).2
      simp [crossed, decide_eq_false (hat.trans hlon.le).not_gt]

variable {p : Polygon ℝ}

theorem Polygon.overlaps_vertex (h : w ∈ p.vertices) :
    p.boundingBox.overlaps w.lat w.lon = true := by
  unfold Polygon.boundingBox
  rcases hv : p.vertices with - | ⟨v, vs⟩
  · rw [hv] at h
    cases h
  · exact overlaps_bounds (hv ▸ h)

/-- A rectangle's vertices are vertices of the polygon. -/
theorem axisAlignedRectangleBounds_within
    (h : axisAlignedRectangleBounds p = some b) : b.Within p.boundingBox := by
  have hsub : ∀ w ∈ p.fourVertices, w ∈ p.vertices := by
    unfold Polygon.fourVertices
    split
    · next a b c d e hv =>
      rw [hv]
      split_ifs
      · exact fun w hw => List.mem_append_left [e] hw
      · exact fun w hw => hw
    · exact fun w hw => hw
  unfold axisAlignedRectangleBounds at h
  split at h
  · next a b c d hv =>
    split_ifs at h
    cases h
    exact bounds_within_iff.mpr fun w hw => Polygon.overlaps_vertex (hsub w (hv ▸ hw))
  · cases h

/-- **The box of a polygon** covers it. -/
theorem Polygon.overlaps_of_contains (h : p.contains lat lon = true) :
    p.boundingBox.overlaps lat lon = true := by
  unfold Polygon.contains at h
  rcases hr : axisAlignedRectangleBounds p with - | b
  · simp only [hr] at h
    split_ifs at h with hlen
    rcases hlast : p.vertices.getLast? with - | vj
    · simp [hlast] at h
    · -- outside the box the ray crosses evenly often
      by_contra hout
      obtain ⟨sign, hsign⟩ := exists_sign_of_not_overlaps (Bool.eq_false_of_not_eq_true hout)
      have hclosed := crossLoop_closed (S := fun v => p.boundingBox.overlaps v.lat v.lon = true)
        hsign hlast fun v hv => Polygon.overlaps_vertex hv
      simp [hlast, hclosed] at h
  · simp only [hr] at h
    exact (axisAlignedRectangleBounds_within hr).overlaps h

/-! ### The box of a circle -/

theorem fabs_eq_abs (x : ℝ) : fabs x = |x| := by
  have hzero : (ofNat 0 : ℝ) = 0 := Nat.cast_zero
  unfold fabs
  rw [hzero]
  split_ifs with h
  · exact (abs_of_neg h).symm
  · exact (abs_of_nonneg (not_lt.mp h)).symm

theorem Circle.overlaps_iff {c : Circle ℝ} : c.boundingBox.overlaps lat lon = true ↔
    |lat - c.centerLat| ≤ c.dLat ∧ |lon - c.centerLon| ≤ c.dLon := by
  rw [Box.overlaps_iff, abs_le, abs_le]
  unfold Circle.boundingBox
  constructor
  · rintro ⟨h₁, h₂, h₃, h₄⟩
    exact ⟨⟨by linarith, by linarith⟩, by linarith, by linarith⟩
  · rintro ⟨⟨h₁, h₂⟩, h₃, h₄⟩
    exact ⟨by linarith, by linarith, by linarith, by linarith⟩

/-- The center of a circle is in its box. -/
theorem Circle.overlaps_center {c : Circle ℝ} (h : 0 ≤ c.radiusMeters) :
    c.boundingBox.overlaps c.centerLat c.centerLon = true := by
  rw [Circle.overlaps_iff, sub_self, sub_self, abs_zero]
  constructor
  · exact div_nonneg h (Nat.cast_nonneg _)
  · exact (abs_nonneg _).trans_eq (fabs_eq_abs _).symm

/-- The box of a shape covers a coordinate unless the shape does not contain it: nothing is asked of
a polygon. -/
def Shape.Covers (g : Shape ℝ) (lat lon : ℝ) : Prop :=
  match g with
  | .polygon _ => True
  | .circle c => c.contains lat lon = true →
      |lat - c.centerLat| ≤ c.dLat ∧ |lon - c.centerLon| ≤ c.dLon

theorem Shape.covers_iff {g : Shape ℝ} : (Geometry.contains g lat lon = true →
    (Geometry.boundingBox g).overlaps lat lon = true) ↔ g.Covers lat lon := by
  cases g with
  | circle c => exact imp_congr_right fun _ => Circle.overlaps_iff
  | polygon p => exact iff_of_true Polygon.overlaps_of_contains trivial

/-- The distance to a point of the equator along its meridian. -/
theorem haversineMeters_meridian (h₀ : 0 ≤ lat) (h₁ : lat ≤ 180) :
    haversineMeters 0 0 lat (0 : ℝ) = 6371000 * (lat * Real.pi / 180) := by
  have hpi := Real.pi_pos
  generalize hx : lat * Real.pi / 180 / 2 = x
  have hx₀ : 0 ≤ x := by
    rw [← hx]
    positivity
  have hx₁ : x ≤ Real.pi / 2 := by
    nlinarith
  have hsin : 0 ≤ Real.sin x := Real.sin_nonneg_of_nonneg_of_le_pi hx₀ (by linarith)
  have hcos : 0 ≤ Real.cos x := Real.cos_nonneg_of_neg_pi_div_two_le_of_le (by linarith) hx₁
  have harg : Complex.arg ⟨Real.cos x, Real.sin x⟩ = x := by
    have hpolar := Complex.arg_cos_add_sin_mul_I (θ := x) ⟨by linarith, by linarith⟩
    rwa [← Complex.ofReal_cos, ← Complex.ofReal_sin, ← Complex.mk_eq_add_mul_I] at hpolar
  have hroot₁ : √(Real.sin x * Real.sin x) = Real.sin x := Real.sqrt_mul_self hsin
  have hroot₂ : √(1 - Real.sin x * Real.sin x) = Real.cos x := by
    rw [← Real.sin_sq_add_cos_sq x, ← pow_two, add_sub_cancel_left, Real.sqrt_sq hcos]
  simp only [haversineMeters, earthRadiusMeters, ofNat, pi, sin, cos, sqrt,
    atan2, Nat.cast_ofNat, sub_zero, zero_mul, zero_div, Real.sin_zero, mul_zero, add_zero,
    Nat.cast_one, hx, hroot₁, hroot₂, harg]
  rw [← hx]
  ring

/-- A circle of 111320 metres contains more than one degree of the meridian. -/
theorem Circle.contains_meridian {c : ℝ} (h₀ : 0 ≤ c) (h₁ : c ≤ 1.001) :
    Circle.contains ⟨0, 0, 111320⟩ c (0 : ℝ) = true := by
  have hpi := Real.pi_lt_d4
  unfold Circle.contains
  rw [decide_eq_true_iff, haversineMeters_meridian h₀ (by linarith)]
  nlinarith

end

end Xolu.Loc
