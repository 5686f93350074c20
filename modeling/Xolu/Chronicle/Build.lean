/-
# Building hierarchies (pkg/chronicle/chronicle.go)

`newHierarchy` makes a chain of grains, `newTreeHierarchy` a tree in which every grain but
one names the finer grain it coarsens.  The constructors resolve names, count roots, walk up
from every grain to refuse cycles, and probe a few instants to see whether each finer grain
tiles the coarser one.

What they establish about the shape is a `Rooted` hierarchy: one root, reached from
everywhere.  The probes are tests and establish nothing for all instants, so that a finer
grain does tile a coarser one stays a condition on the grains.

Main result: `foldRange_exact`.  In a hierarchy built of fixed and calendar grains that tile
one another, a fold over a window aligned to the finest grain combines the values appended
inside the window, each once.
-/
import Mathlib.Data.List.GetD
import Xolu.Chronicle.Engine

namespace Xolu.Chronicle

open List Tiling Hierarchy

/-! ### The constructors -/

/-- A grain with the name of its parent, "" for the root. -/
structure TreeSpec where
  grain : Grain
  parent : String

/-- The refusals of the constructors. -/
inductive BuildError where
  | empty
  | unnamed (position : Nat)
  | duplicateName (name : String)
  | unknownParent (name parent : String)
  | ownParent (name : String)
  | roots (found : Nat)
  | cycle (name : String)
  | notBoundary (child parent : String) (start : Int)
  | tooFine (child parent : String)
  | overshoot (child parent : String) (steps : Nat) (parentEnd : Int)
  | notFiner (child parent : String)
deriving DecidableEq, Repr

/-- `nestingProbes`: the start of 2024, its leap day at noon, an instant in March 2025, the
last hour of that year and an instant in July 2026. -/
def nestingProbes : List Int :=
  [1704067200000000000, 1709208000000000000, 1742023800000000000, 1767222000000000000,
    1784625300000000000]

/-- The loop of `checkNesting`: step by child buckets until the parent's end, and say where
and after how many steps; `none` when the steps run out. -/
def stepChild (child : Grain) (parentEnd : Int) : Nat → Int → Nat → Option (Int × Nat)
  | 0, _, _ => none
  | fuel + 1, cur, steps =>
    if cur < parentEnd then stepChild child parentEnd fuel (child.next cur) (steps + 1)
    else some (cur, steps)

/-- `checkNesting` at one probe. -/
def checkProbe (child par : Grain) (probe : Int) : Except BuildError Unit :=
  let start := par.truncate probe
  let parentEnd := par.next start
  if child.truncate start ≠ start then .error (.notBoundary child.name par.name start)
  else match stepChild child parentEnd 100001 start 0 with
    | none => .error (.tooFine child.name par.name)
    | some (cur, steps) =>
      if cur ≠ parentEnd then .error (.overshoot child.name par.name steps parentEnd)
      else if steps < 1 then .error (.notFiner child.name par.name)
      else .ok ()

def checkNesting (child par : Grain) : Except BuildError Unit :=
  nestingProbes.forM (checkProbe child par)

/-- The nesting checks of `newHierarchy`. -/
def checkGrains (h : Hierarchy) : Except BuildError Unit :=
  (range h.levels).forM fun i =>
    match h.parentOf i with
    | some p => checkNesting (h.grain p) (h.grain i)
    | none => .ok ()

/-- `newHierarchy`: construct what passes the nesting checks. -/
def checkedHierarchy (h : Hierarchy) : Except BuildError Hierarchy :=
  match checkGrains h with
  | .error e => .error e
  | .ok () => .ok h

/-- A chain: the finest grain first, each the parent of the next. -/
def chain (grains : List Grain) : Hierarchy where
  grains := grains
  parent := none :: (range (grains.length - 1)).map some

def newHierarchy (grains : List Grain) : Except BuildError Hierarchy :=
  if grains = [] then .error .empty else checkedHierarchy (chain grains)

/-- The name loop of `NewTreeHierarchy`. -/
def checkNames : Nat → List String → List TreeSpec → Except BuildError Unit
  | _, _, [] => .ok ()
  | i, seen, s :: rest =>
    if s.grain.name = "" then .error (.unnamed i)
    else if s.grain.name ∈ seen then .error (.duplicateName s.grain.name)
    else checkNames (i + 1) (s.grain.name :: seen) rest

/-- The parent loop: the level of the parent each grain names, from position `i` on. -/
def resolveParents (specs : List TreeSpec) :
    Nat → List TreeSpec → Except BuildError (List (Option Nat))
  | _, [] => .ok []
  | i, s :: rest =>
    if s.parent = "" then
      match resolveParents specs (i + 1) rest with
      | .error e => .error e
      | .ok ps => .ok (none :: ps)
    else match specs.findIdx? fun q => q.grain.name == s.parent with
      | none => .error (.unknownParent s.grain.name s.parent)
      | some p =>
        if p = i then .error (.ownParent s.grain.name)
        else match resolveParents specs (i + 1) rest with
          | .error e => .error e
          | .ok ps => .ok (some p :: ps)

/-- The levels without a parent. -/
def Hierarchy.rootLevels (h : Hierarchy) : List Nat :=
  (range h.parent.length).filter fun i => h.parentOf i == none

/-- The walk of the cycle check from `cur` on.  It ends at the root or at a level seen
before; the levels seen grow, so the fuel is not what ends it. -/
def Hierarchy.climbs (h : Hierarchy) : Nat → List Nat → Option Nat → Bool
  | _, _, none => true
  | 0, _, some _ => false
  | fuel + 1, seen, some cur =>
    !seen.contains cur && h.climbs fuel (cur :: seen) (h.parentOf cur)

def newTreeHierarchy (specs : List TreeSpec) : Except BuildError Hierarchy :=
  if specs = [] then .error .empty
  else match checkNames 0 [] specs with
  | .error e => .error e
  | .ok () =>
    match resolveParents specs 0 specs with
    | .error e => .error e
    | .ok parent =>
      let h : Hierarchy := { grains := specs.map TreeSpec.grain, parent := parent }
      if h.rootLevels.length ≠ 1 then .error (.roots h.rootLevels.length)
      else match (range h.levels).find? fun i => !h.climbs h.levels [i] (h.parentOf i) with
        | some i => .error (.cycle (h.grain i).name)
        | none => checkedHierarchy h

/-! ### The shape the constructors establish -/

theorem checkedHierarchy_ok {h h' : Hierarchy} (hok : checkedHierarchy h = .ok h') : h' = h := by
  unfold checkedHierarchy at hok
  split at hok
  · cases hok
  · exact (Except.ok.inj hok).symm

variable {i : Nat} {specs : List TreeSpec}

/-- A resolved parent is one of the grains. -/
theorem resolveParents_ok {rest : List TreeSpec} {ps : List (Option Nat)}
    (hok : resolveParents specs i rest = .ok ps) :
    ps.length = rest.length ∧ ∀ p, some p ∈ ps → p < specs.length := by
  induction rest generalizing i ps with
  | nil =>
    cases hok
    exact ⟨rfl, by simp⟩
  | cons s rest ih =>
    unfold resolveParents at hok
    split at hok
    · split at hok
      · cases hok
      next qs hqs =>
      cases hok
      obtain ⟨hlen, hlt⟩ := ih hqs
      exact ⟨by simp [hlen], fun p hp => hlt p (by simpa using hp)⟩
    · split at hok
      · cases hok
      next q hq =>
      split at hok
      · cases hok
      split at hok
      · cases hok
      next qs hqs =>
      cases hok
      obtain ⟨hlen, hlt⟩ := ih hqs
      refine ⟨by simp [hlen], ?_⟩
      intro p hp
      rcases mem_cons.mp hp with hp | hp
      · rw [Option.some.inj hp]
        exact (findIdx?_eq_some_iff_getElem.mp hq).1
      · exact hlt p hp

variable {h : Hierarchy}

theorem Hierarchy.parentOf_mem {p : Nat} (hp : h.parentOf i = some p) : some p ∈ h.parent := by
  unfold parentOf at hp
  rw [getD_eq_getElem?_getD] at hp
  cases hi : h.parent[i]? with
  | none => simp [hi] at hp
  | some q =>
    rw [hi] at hp
    exact hp ▸ mem_of_getElem? hi

/-- With a single root level, that is `Root`. -/
theorem Hierarchy.root_of_rootLevels {r : Nat} (hr : h.rootLevels = [r]) : h.root = r := by
  unfold root
  rw [← head?_filter]
  unfold rootLevels at hr
  rw [hr]
  rfl

/-- A walk that ends reaches the root. -/
theorem Hierarchy.reaches_of_climbs
    (hlt : ∀ i p, h.parentOf i = some p → p < h.levels) {fuel : Nat} (seen : List Nat)
    (hc : h.climbs fuel seen (h.parentOf i) = true) : h.reaches fuel i = true := by
  induction fuel generalizing i seen with
  | zero =>
    cases hp : h.parentOf i with
    | none => simp [reaches, hp]
    | some p => simp [climbs, hp] at hc
  | succ fuel ih =>
    cases hp : h.parentOf i with
    | none => simp [reaches, hp]
    | some p =>
      rw [hp, climbs, Bool.and_eq_true] at hc
      simp only [reaches, hp, hlt i p hp, decide_true, Bool.true_and]
      exact ih _ hc.2

/-- **What `NewTreeHierarchy` accepts is rooted.** -/
theorem rooted_of_newTreeHierarchy (hok : newTreeHierarchy specs = .ok h) : h.Rooted := by
  unfold newTreeHierarchy at hok
  split at hok
  · cases hok
  split at hok
  · cases hok
  split at hok
  · cases hok
  next parent hparent =>
  dsimp only at hok
  split at hok
  · cases hok
  next hroots =>
  split at hok
  · cases hok
  next hclimb =>
  obtain rfl := checkedHierarchy_ok hok
  obtain ⟨hlen, hlt⟩ := resolveParents_ok hparent
  generalize hH : (⟨specs.map TreeSpec.grain, parent⟩ : Hierarchy) = h at *
  have hlevels : h.levels = specs.length := by rw [← hH]; simp [levels]
  have hplen : h.parent.length = h.levels := by rw [hlevels, ← hlen, ← hH]
  have hup : ∀ i p, h.parentOf i = some p → p < h.levels := by
    intro i p hp
    rw [hlevels]
    apply hlt
    have := parentOf_mem hp
    rwa [← hH] at this
  obtain ⟨r, hr⟩ := length_eq_one_iff.mp (not_not.mp hroots)
  have hroot : ∀ i, i < h.levels ∧ h.parentOf i = none ↔ i = r := by
    intro i
    have hmem : i ∈ h.rootLevels ↔ i = r := by rw [hr, mem_singleton]
    rw [← hmem, rootLevels, mem_filter, mem_range, hplen, beq_iff_eq]
  rw [find?_eq_none] at hclimb
  refine ⟨?_, ?_, ?_⟩
  · rw [root_of_rootLevels hr]
    exact ((hroot r).mpr rfl).1
  · intro i hi hp
    rw [root_of_rootLevels hr]
    exact (hroot i).mp ⟨hi, hp⟩
  · intro i hi
    apply reaches_of_climbs hup [i]
    simpa using hclimb i (mem_range.mpr hi)

variable (grains : List Grain)

/-- In a chain the grain before each one is its parent. -/
theorem chain_parentOf (hi : i < grains.length) :
    (chain grains).parentOf i = if i = 0 then none else some (i - 1) := by
  unfold parentOf chain
  cases i with
  | zero => rfl
  | succ i =>
    rw [getD_cons_succ, getD_eq_getElem _ _ (by simp; omega)]
    simp

theorem chain_root : (chain grains).root = 0 := by
  unfold root chain
  rw [length_cons, range_succ_eq_map, find?_cons_of_pos]
  · rfl
  · rfl

/-- Level `i` of a chain is `i` steps from the root. -/
theorem chain_reaches {n : Nat} (hn : i ≤ n) (hi : i < grains.length) :
    (chain grains).reaches n i = true := by
  induction n generalizing i with
  | zero =>
    obtain rfl := Nat.le_zero.mp hn
    rfl
  | succ n ih =>
    rw [reaches, chain_parentOf grains hi]
    by_cases h0 : i = 0
    · simp [h0]
    · have hlt : i - 1 < (chain grains).levels := by show i - 1 < grains.length; omega
      simp only [if_neg h0, hlt, decide_true, Bool.true_and]
      exact ih (by omega) (by omega)

/-- **What `NewHierarchy` accepts is rooted.** -/
theorem rooted_of_newHierarchy {grains : List Grain}
    (hok : newHierarchy grains = .ok h) : h.Rooted := by
  unfold newHierarchy at hok
  split at hok
  · cases hok
  next hne =>
  obtain rfl := checkedHierarchy_ok hok
  refine ⟨?_, ?_, ?_⟩
  · rw [chain_root]
    exact length_pos_iff.mpr hne
  · intro i hi hp
    rw [chain_parentOf grains hi] at hp
    rw [chain_root]
    by_contra h0
    simp [h0] at hp
  · intro i hi
    exact chain_reaches grains (Nat.le_of_lt hi) hi

/-! ### Cascade reads -/

/-- A grain of one of the two kinds the package offers. -/
inductive Grain.Standard : Grain → Prop
  | fixed (name : String) {width : Int} (h : 0 < width) : Standard (fixedGrain name width)
  | months (name : String) {n : Int} (h : 0 < n) (h12 : n ∣ 12) : Standard (monthsGrain name n)

theorem Grain.Standard.tiles {g : Grain} (h : g.Standard) : g.Tiles := by
  cases h with
  | fixed name hw => exact fixedGrain_tiles name hw
  | months name hn h12 => exact monthsGrain_tiles name hn h12

theorem Grain.Standard.next_le {g : Grain} (h : g.Standard) {s b : Int} (hs : g.truncate s = s)
    (hb : g.truncate b = b) (hlt : s < b) : g.next s ≤ b := by
  cases h with
  | fixed name hw => exact fixedGrain_next_le name hs hb hlt
  | months name hn h12 => exact monthsGrain_next_le name h12 hs hb hlt

/-- Built by one of the constructors. -/
inductive Hierarchy.Built (h : Hierarchy) : Prop
  | chain (grains : List Grain) (hok : newHierarchy grains = .ok h)
  | tree (specs : List TreeSpec) (hok : newTreeHierarchy specs = .ok h)

theorem Hierarchy.Built.rooted (hb : h.Built) : h.Rooted := by
  cases hb with
  | chain grains hok => exact rooted_of_newHierarchy hok
  | tree specs hok => exact rooted_of_newTreeHierarchy hok

/-- Every grain that names a parent is tiled by it. -/
def Hierarchy.Nested (h : Hierarchy) : Prop :=
  ∀ i p, h.parentOf i = some p → Nests (h.grain p).truncate (h.grain i).truncate

theorem Hierarchy.Built.valid (hb : h.Built) (hg : ∀ g ∈ h.grains, g.Standard)
    (hn : h.Nested) : h.Valid where
  toRooted := hb.rooted
  tiles i hi := by
    apply Grain.Standard.tiles
    apply hg
    unfold grain
    rw [getD_eq_getElem _ _ hi]
    exact getElem_mem hi
  nests i _ p hp := hn i p hp

/-- The in-memory store keeps whole instants. -/
theorem faithful_id (g : Grain) (lo hi : Int) : Faithful id g (fun _ => True) lo hi where
  mono _ _ _ h _ := h
  between _ _ _ _ _ _ _ _ _ _ := Iff.rfl

/-- **Cascade reads are exact**: in a hierarchy built of fixed and calendar grains that tile
one another, the fold of a window aligned to the finest grain is the sum of the values
appended inside it. -/
theorem foldRange_exact {T : Type} [AddCommMonoid T] {h : Hierarchy} (hb : h.Built)
    (hg : ∀ g ∈ h.grains, g.Standard) (hn : h.Nested) (es : List (T × Int)) {lo hi : Int}
    (hlo : (h.grain h.root).truncate lo = lo) (hhi : (h.grain h.root).truncate hi = hi) :
    foldRange h id (appendAll h id es) lo hi
      = ((es.filter fun e => lo ≤ e.2 ∧ e.2 < hi).map Prod.fst).sum := by
  have hv := hb.valid hg hn
  have hroot := hv.tiles _ hv.root_lt
  show _ = windowSum es id lo hi
  rcases le_or_gt lo hi with hle | hlt
  · rw [foldRange_appendAll hv hle (faithful_id _ lo hi) fun _ _ _ _ => trivial]
    -- an aligned window holds an instant when it holds the start of its bucket
    apply windowSum_congr
    intro e _
    exact and_congr (hroot.le_trunc_iff hlo) (hroot.trunc_lt_iff hhi)
  · rw [windowSum_of_le hlt.le, foldRange, if_neg (by omega)]

/-- The tree of tree_test.go, which is bal's: days fan out into weeks on one branch and
months, quarters and years on the other. -/
def balHierarchy : List TreeSpec :=
  [⟨fixedGrain "hour" 3600000000000, ""⟩, ⟨fixedGrain "day" 86400000000000, "hour"⟩,
    ⟨fixedGrain "week" 604800000000000, "day"⟩, ⟨monthGrain "month", "day"⟩,
    ⟨monthsGrain "quarter" 3, "month"⟩, ⟨monthsGrain "year" 12, "quarter"⟩]

/-- The hierarchy that tree resolves to. -/
def balTree : Hierarchy where
  grains := balHierarchy.map TreeSpec.grain
  parent := [none, some 0, some 1, some 1, some 3, some 4]

theorem newTreeHierarchy_balHierarchy : newTreeHierarchy balHierarchy = .ok balTree := by
  have hnames : checkNames 0 [] balHierarchy = .ok () := by decide +kernel
  have hparents : resolveParents balHierarchy 0 balHierarchy = .ok balTree.parent := by
    decide +kernel
  have hclimb : (range balTree.levels).find?
      (fun i => !balTree.climbs balTree.levels [i] (balTree.parentOf i)) = none := by decide +kernel
  have hnest : checkGrains balTree = .ok () := by decide +kernel
  unfold newTreeHierarchy
  rw [if_neg (by decide), hnames, hparents]
  have htree : (⟨balHierarchy.map TreeSpec.grain, balTree.parent⟩ : Hierarchy) = balTree := rfl
  simp only [htree]
  rw [if_neg (by decide), hclimb]
  simp only [checkedHierarchy, hnest]

theorem balTree_standard : ∀ g ∈ balTree.grains, g.Standard := by
  simp only [balTree, balHierarchy, map_cons, map_nil, forall_mem_cons]
  refine ⟨.fixed _ (by decide), .fixed _ (by decide), .fixed _ (by decide),
    .months _ (by decide) (by decide), .months _ (by decide) (by decide),
    .months _ (by decide) (by decide), by simp⟩

theorem balTree_nested : balTree.Nested := by
  intro i p hp
  match i, hp with
  | 1, hp => cases hp; exact fixedGrain_nests _ _ (by decide)
  | 2, hp => cases hp; exact fixedGrain_nests _ _ (by decide)
  | 3, hp => cases hp; exact day_nests_months _ _ _
  | 4, hp => cases hp; exact months_nest_months _ _ (by decide) (by decide)
  | 5, hp => cases hp; exact months_nest_months _ _ (by decide) (by decide)

/-- February 2024 in bal's tree: the last instant of January and the first of March stay
out. -/
theorem foldRange_exact_february : newTreeHierarchy balHierarchy = .ok balTree ∧
      foldRange balTree id (appendAll balTree id
        [((5 : Int), 1706745599999999999), (7, 1706745600000000000), (11, 1709208000000000000),
          (13, 1709251200000000000)]) 1706745600000000000 1709251200000000000 = 18 :=
  ⟨newTreeHierarchy_balHierarchy,
    foldRange_exact (.tree _ newTreeHierarchy_balHierarchy) balTree_standard balTree_nested _
      (by decide) (by decide)⟩

end Xolu.Chronicle
