/-
# Trees given by their edges

Edges with a source and a destination form trees if no two have one destination and the pointers
from the destinations back to the sources make no cycle.  `height` is the length of the longest way
down from a point, and `bfs` the edges below a point in breadth-first order.  Both are recursions
without a bound of their own; the bounds here are enough in trees.
-/
import Mathlib.Data.List.Fold
import Mathlib.Data.List.MinMax
import Xolu.Lib.Keyed
import Xolu.Lib.Pointers

namespace Trees

open List Relation Pointers Keyed

variable {ε α : Type*} [DecidableEq α] {src dst : ε → α} {edges edges' : List ε} {a b x : α}

/-- The source of the edge to a point. -/
def parent (src dst : ε → α) (edges : List ε) (a : α) : Option α :=
  (edges.find? fun e => dst e = a).map src

/-- The length of the longest way down, up to a bound. -/
def height (src dst : ε → α) (edges : List ε) : Nat → α → Nat
  | 0, _ => 0
  | n + 1, a => (edges.filter fun e => src e = a).foldl
      (fun m e => max m (1 + height src dst edges n (dst e))) 0

/-- The edges below the points of a queue, behind those found so far. -/
def bfs (src dst : ε → α) (edges : List ε) : Nat → List α → List ε → List ε
  | 0, _, found => found
  | _ + 1, [], found => found
  | n + 1, cur :: queue, found =>
    bfs src dst edges n (queue ++ (edges.filter fun e => src e = cur).map dst)
      (found ++ edges.filter fun e => src e = cur)

/-- No two edges have one destination, and there is no cycle. -/
structure Forest (src dst : ε → α) (edges : List ε) : Prop where
  unique : UniqueKey dst edges
  acyclic : Acyclic (parent src dst edges)

theorem exists_of_parent (h : parent src dst edges a = some b) :
    ∃ e ∈ edges, dst e = a ∧ src e = b := by
  obtain ⟨e, hfind, hsrc⟩ := Option.map_eq_some_iff.mp h
  have hdst := find?_some hfind
  exact ⟨e, mem_of_find?_eq_some hfind, of_decide_eq_true hdst, hsrc⟩

theorem parent_of_mem (h : UniqueKey dst edges) {e : ε} (he : e ∈ edges) :
    parent src dst edges (dst e) = some (src e) := by
  rw [parent, h.find?_of_mem he]
  rfl

theorem parent_of_subset (h : UniqueKey dst edges) (hsub : edges' ⊆ edges)
    (hparent : parent src dst edges' a = some b) : parent src dst edges a = some b := by
  obtain ⟨e, he, rfl, rfl⟩ := exists_of_parent hparent
  exact parent_of_mem h (hsub he)

/-- Fewer edges are still trees. -/
theorem Forest.sublist (h : Forest src dst edges) (hsub : edges'.Sublist edges) :
    Forest src dst edges' :=
  ⟨h.unique.sublist (hsub.map dst), h.acyclic.mono fun _ _ => parent_of_subset h.unique hsub.subset⟩

/-! ### Heights -/

theorem le_foldl_max (f : ε → Nat) {l : List ε} {e : ε} (he : e ∈ l) (m : Nat) :
    f e ≤ l.foldl (fun m e => max m (f e)) m := by
  rw [← foldl_map, foldl_eq_foldr]
  exact le_max_of_le' m (mem_map_of_mem he) le_rfl

/-- A way up is not longer than the height of its end. -/
theorem le_height {n fuel : Nat} (h : Steps (parent src dst edges) n x a) (hn : n ≤ fuel) :
    n ≤ height src dst edges fuel a := by
  induction fuel generalizing n a with
  | zero => omega
  | succ fuel ih =>
    rcases n with - | n
    · omega
    obtain ⟨c, hpath, hlink⟩ := Steps.last h
    obtain ⟨e, he, rfl, rfl⟩ := exists_of_parent hlink
    have hmem : e ∈ edges.filter fun e' => src e' = src e := mem_filter.mpr ⟨he, decide_eq_true rfl⟩
    have hbound := le_foldl_max (fun e => 1 + height src dst edges fuel (dst e)) hmem 0
    have := ih hpath (by omega)
    rw [height]
    omega

/-! ### Breadth-first search -/

/-- The search below a root: what is found was not found before and comes from the root, and a
point come to so far is in the queue, or its edges are found, but not both. -/
structure Searching (src dst : ε → α) (edges : List ε) (root : α) (queue : List α)
    (found : List ε) : Prop where
  subset : found ⊆ edges
  nodup : found.Nodup
  nodup_queue : queue.Nodup
  fresh : ∀ e ∈ found, src e ∉ queue
  queued : ∀ x ∈ queue, x = root ∨ ∃ e ∈ found, dst e = x
  source : ∀ e ∈ found, src e = root ∨ ∃ e' ∈ found, dst e' = src e
  below : ∀ e ∈ found, Reaches (parent src dst edges) (src e) root
  root : root ∈ queue ∨ ∀ e ∈ edges, src e = root → e ∈ found
  expanded : ∀ e' ∈ found, dst e' ∈ queue ∨ ∀ e ∈ edges, src e = dst e' → e ∈ found

variable {root cur : α} {queue : List α} {found : List ε} {e : ε}

theorem Searching.start (root : α) : Searching src dst edges root [root] [] where
  subset := nil_subset _
  nodup := nodup_nil
  nodup_queue := nodup_singleton root
  fresh := fun _ he => absurd he not_mem_nil
  queued := fun _ hx => .inl (mem_singleton.mp hx)
  source := fun _ he => absurd he not_mem_nil
  below := fun _ he => absurd he not_mem_nil
  root := .inl (mem_singleton_self root)
  expanded := fun _ he => absurd he not_mem_nil

/-- What is expanded next is new. -/
theorem Searching.not_mem (h : Searching src dst edges root (cur :: queue) found)
    (he : src e = cur) : e ∉ found := fun hmem => h.fresh e hmem (he ▸ mem_cons_self)

section

variable (hforest : Forest src dst edges)

include hforest

/-- A point the search has come to is below the root. -/
theorem Searching.reaches_queue (h : Searching src dst edges root queue found) (hx : x ∈ queue) :
    Reaches (parent src dst edges) x root := by
  rcases h.queued x hx with rfl | ⟨e, he, rfl⟩
  · exact .refl
  · exact .head (parent_of_mem hforest.unique (h.subset he)) (h.below e he)

/-- The destination of a new edge is new. -/
theorem Searching.dst_new (h : Searching src dst edges root (cur :: queue) found) (he : e ∈ edges)
    (hsrc : src e = cur) : dst e ≠ root ∧ dst e ≠ cur ∧ ∀ e' ∈ found, dst e' ≠ dst e := by
  have hlink : parent src dst edges (dst e) = some cur := hsrc ▸ parent_of_mem hforest.unique he
  have hup := h.reaches_queue hforest mem_cons_self
  refine ⟨fun heq => ?_, fun heq => ?_, fun e' he' heq => ?_⟩
  · rw [heq] at hlink
    exact hforest.acyclic root (TransGen.head' hlink hup)
  · rw [heq] at hlink
    exact hforest.acyclic cur (.single hlink)
  · obtain rfl := hforest.unique.eq_of_key (h.subset he') he heq
    exact h.not_mem hsrc he'

/-- **One step of the search.** -/
theorem Searching.step (h : Searching src dst edges root (cur :: queue) found) :
    Searching src dst edges root (queue ++ (edges.filter fun e => src e = cur).map dst)
      (found ++ edges.filter fun e => src e = cur) := by
  have hnext : ∀ {e}, e ∈ edges.filter (fun e => src e = cur) ↔ e ∈ edges ∧ src e = cur := by
    intro e
    rw [mem_filter, decide_eq_true_iff]
  have hedges : edges.Nodup := List.Nodup.of_map dst hforest.unique
  obtain ⟨hcur, hqueue⟩ := nodup_cons.mp h.nodup_queue
  have hup := h.reaches_queue hforest mem_cons_self
  -- what was come to so far still is
  have hstill : ∀ {x}, (x = root ∨ ∃ e ∈ found, dst e = x) →
      x = root ∨ ∃ e ∈ found ++ edges.filter fun e => src e = cur, dst e = x := by
    rintro x (heq | ⟨e, he, heq⟩)
    · exact .inl heq
    · exact .inr ⟨e, mem_append_left _ he, heq⟩
  -- and the one expanded has its edges found now
  have hexpand : ∀ {x}, (x ∈ cur :: queue ∨ ∀ e ∈ edges, src e = x → e ∈ found) →
      x ∈ queue ++ (edges.filter fun e => src e = cur).map dst ∨
        ∀ e ∈ edges, src e = x → e ∈ found ++ edges.filter fun e => src e = cur := by
    rintro x (hmem | hall)
    · rcases mem_cons.mp hmem with rfl | hmem
      · exact .inr fun e he hsrc => mem_append_right _ (hnext.mpr ⟨he, hsrc⟩)
      · exact .inl (mem_append_left _ hmem)
    · exact .inr fun e he hsrc => mem_append_left _ (hall e he hsrc)
  refine
    { subset := append_subset.mpr ⟨h.subset, filter_sublist.subset⟩
      nodup := h.nodup.append (hedges.filter _) fun e he he' => h.not_mem (hnext.mp he').2 he
      nodup_queue := hqueue.append (hforest.unique.sublist (filter_sublist.map dst)) ?_
      fresh := ?_
      queued := ?_
      source := ?_
      below := ?_
      root := hexpand h.root
      expanded := ?_ }
  · -- a new destination is not in the queue
    intro x hx hx'
    obtain ⟨e, he, rfl⟩ := mem_map.mp hx'
    obtain ⟨hroot, -, hfound⟩ := h.dst_new hforest (hnext.mp he).1 (hnext.mp he).2
    rcases h.queued _ (mem_cons_of_mem cur hx) with heq | ⟨e', he', heq⟩
    · exact hroot heq
    · exact hfound e' he' heq
  · intro e he hmem
    rcases mem_append.mp he with he | he
    · rcases mem_append.mp hmem with hmem | hmem
      · exact h.fresh e he (mem_cons_of_mem cur hmem)
      · obtain ⟨e', he', heq⟩ := mem_map.mp hmem
        obtain ⟨hroot, -, hfound⟩ := h.dst_new hforest (hnext.mp he').1 (hnext.mp he').2
        rcases h.source e he with hsrc | ⟨e'', he'', hsrc⟩
        · exact hroot (heq.trans hsrc)
        · exact hfound e'' he'' (hsrc.trans heq.symm)
    · rw [(hnext.mp he).2] at hmem
      rcases mem_append.mp hmem with hmem | hmem
      · exact hcur hmem
      · obtain ⟨e', he', heq⟩ := mem_map.mp hmem
        exact (h.dst_new hforest (hnext.mp he').1 (hnext.mp he').2).2.1 heq
  · intro x hx
    rcases mem_append.mp hx with hx | hx
    · exact hstill (h.queued x (mem_cons_of_mem cur hx))
    · obtain ⟨e, he, heq⟩ := mem_map.mp hx
      exact .inr ⟨e, mem_append_right _ he, heq⟩
  · intro e he
    rcases mem_append.mp he with he | he
    · exact hstill (h.source e he)
    · rw [(hnext.mp he).2]
      exact hstill (h.queued cur mem_cons_self)
  · intro e he
    rcases mem_append.mp he with he | he
    · exact h.below e he
    · rw [(hnext.mp he).2]
      exact hup
  · intro e' he'
    rcases mem_append.mp he' with he' | he'
    · exact hexpand (h.expanded e' he')
    · exact .inl (mem_append_right _ (mem_map_of_mem he'))

/-- The search ends with an empty queue. -/
theorem Searching.bfs (h : Searching src dst edges root queue found) {n : Nat}
    (hn : queue.length + edges.length ≤ n + found.length) :
    Searching src dst edges root [] (bfs src dst edges n queue found) := by
  induction n generalizing queue found with
  | zero =>
    -- there are not more edges found than there are
    have hle := (subperm_of_subset h.nodup h.subset).length_le
    obtain rfl : queue = [] := eq_nil_of_length_eq_zero (by omega)
    exact h
  | succ n ih =>
    rcases queue with - | ⟨cur, queue⟩
    · exact h
    · refine ih (h.step hforest) ?_
      rw [length_cons] at hn
      rw [length_append, length_append, length_map]
      omega

/-- **The search finds** the edges below its root. -/
theorem mem_bfs_iff (root : α) : e ∈ bfs src dst edges (edges.length + 1) [root] [] ↔
      e ∈ edges ∧ Reaches (parent src dst edges) (src e) root := by
  have h := (Searching.start root).bfs hforest (n := edges.length + 1)
    (by rw [length_singleton, length_nil]; omega)
  constructor
  · exact fun he => ⟨h.subset he, h.below e he⟩
  · rintro ⟨he, hpath⟩
    -- along the way up to the root
    generalize hsrc : src e = x at hpath
    induction hpath using ReflTransGen.head_induction_on generalizing e with
    | refl =>
      rcases h.root with hmem | hall
      · exact absurd hmem not_mem_nil
      · exact hall e he hsrc
    | head hlink _ ih =>
      obtain ⟨e', he', hdst, hsrc'⟩ := exists_of_parent hlink
      rcases h.expanded e' (ih he' hsrc') with hmem | hall
      · exact absurd hmem not_mem_nil
      · exact hall e he (hsrc.trans hdst.symm)

end

end Trees
