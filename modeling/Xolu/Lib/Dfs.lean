/-
# Depth-first search

`walk` lists what is below a node: it goes through the children of the node, passes over those that
are listed already, appends each of the others and goes on below it.  The children come from a
lookup that may fail.  The recursion is on a fuel, and `none` says that it has run out.

If the lookup does not fail below the node and the nodes there are finitely many, `walk` with more
fuel than nodes returns each of them once (`walk_spec`).
-/
import Mathlib.Data.List.Nodup
import Mathlib.Logic.Relation

namespace Dfs

open List Relation

variable {α ε : Type*}

/-- The children one after the other, with what is below each. -/
def visit [DecidableEq α] (descend : α → List α → Option (Except ε (List α))) :
    List α → List α → Option (Except ε (List α))
  | [], out => some (.ok out)
  | c :: cs, out =>
    if c ∈ out then visit descend cs out
    else
      match descend c (out ++ [c]) with
      | some (.ok out) => visit descend cs out
      | r => r

/-- What is below a node, after what is listed already. -/
def walk [DecidableEq α] (children : α → Except ε (List α)) :
    Nat → α → List α → Option (Except ε (List α))
  -- out of fuel, which `walk_spec` excludes
  | 0, _, _ => none
  | fuel + 1, a, out =>
    match children a with
    | .error e => some (.error e)
    | .ok cs => visit (walk children fuel) cs out

/-! ### What a walk adds -/

/-- The list `out'` is `out` with all that can be reached from the roots, but for what is below the
nodes of `out`. -/
structure Explored (G : α → α → Prop) (root : α → Prop) (out out' : List α) : Prop where
  subset : out ⊆ out'
  nodup : out.Nodup → out'.Nodup
  reached : ∀ x ∈ out', x ∈ out ∨ ∃ r, root r ∧ ReflTransGen G r x
  roots : ∀ r, root r → r ∈ out'
  closed : ∀ x ∈ out', x ∉ out → ∀ y, G x y → y ∈ out'

variable {G : α → α → Prop} {root : α → Prop} {out out' out'' : List α} {c : α} {cs : List α}

theorem Explored.nil : Explored G (· ∈ ([] : List α)) out out where
  subset := fun _ h => h
  nodup := id
  reached _ h := .inl h
  roots _ h := absurd h not_mem_nil
  closed _ h h' := absurd h h'

/-- A child that is listed already. -/
theorem Explored.skip (hc : c ∈ out) (h : Explored G (· ∈ cs) out out') :
    Explored G (· ∈ c :: cs) out out' where
  subset := h.subset
  nodup := h.nodup
  reached x hx := (h.reached x hx).imp_right fun ⟨r, hr, hpath⟩ =>
    ⟨r, mem_cons_of_mem _ hr, hpath⟩
  roots := forall_mem_cons.mpr ⟨h.subset hc, h.roots⟩
  closed := h.closed

/-- A child that is new, and then the others. -/
theorem Explored.cons (hc : c ∉ out) (hbelow : Explored G (G c) (out ++ [c]) out')
    (hrest : Explored G (· ∈ cs) out' out'') : Explored G (· ∈ c :: cs) out out'' where
  subset x hx := hrest.subset (hbelow.subset (mem_append_left _ hx))
  nodup hnd := hrest.nodup (hbelow.nodup (by
    refine List.Nodup.append hnd (nodup_singleton c) ?_
    simpa using hc))
  reached x hx := by
    rcases hrest.reached x hx with hx | ⟨r, hr, hpath⟩
    · rcases hbelow.reached x hx with hx | ⟨r, hr, hpath⟩
      · rcases mem_append.mp hx with hx | hx
        · exact .inl hx
        · rw [mem_singleton.mp hx]
          exact .inr ⟨c, mem_cons_self, .refl⟩
      · exact .inr ⟨c, mem_cons_self, ReflTransGen.head hr hpath⟩
    · exact .inr ⟨r, mem_cons_of_mem _ hr, hpath⟩
  roots := by
    refine forall_mem_cons.mpr ⟨?_, hrest.roots⟩
    exact hrest.subset (hbelow.subset (mem_append_right _ (mem_singleton_self c)))
  closed x hx hnew y hedge := by
    -- `x` was added by the descent into `c`, or as `c` itself, or later
    by_cases hx' : x ∈ out'
    · refine hrest.subset ?_
      by_cases hxc : x = c
      · exact hbelow.roots y (hxc ▸ hedge)
      · exact hbelow.closed x hx' (by simp [hnew, hxc]) y hedge
    · exact hrest.closed x hx hx' y hedge

/-! ### Fuel -/

variable [DecidableEq α] {nodes : List α} {fuel : Nat} {good : α → Prop}

/-- How many nodes are not listed. -/
def unvisited (nodes out : List α) : Nat := (nodes.filter (· ∉ out)).length

theorem unvisited_le (h : out ⊆ out') : unvisited nodes out' ≤ unvisited nodes out := by
  unfold unvisited
  rw [← countP_eq_length_filter, ← countP_eq_length_filter]
  refine countP_mono_left fun x _ hx => ?_
  simp only [decide_eq_true_eq] at hx ⊢
  exact fun hmem => hx (h hmem)

theorem unvisited_lt (hnode : c ∈ nodes) (hnew : c ∉ out) :
    unvisited nodes (out ++ [c]) < unvisited nodes out := by
  unfold unvisited
  have hsub : nodes.filter (· ∉ out ++ [c]) = (nodes.filter (· ∉ out)).filter (· ≠ c) := by
    rw [filter_filter]
    congr 1
    simp [and_comm]
  rw [hsub]
  refine length_filter_lt_length_iff_exists.mpr ⟨c, ?_, by simp⟩
  exact mem_filter.mpr ⟨hnode, by simpa using hnew⟩

theorem visit_spec {descend : α → List α → Option (Except ε (List α))}
    (hdescend : ∀ c out, good c → unvisited nodes out < fuel →
      ∃ out', descend c out = some (.ok out') ∧ Explored G (G c) out out')
    (hcs : ∀ c ∈ cs, good c ∧ c ∈ nodes) (hfuel : unvisited nodes out < fuel + 1) :
    ∃ out', visit descend cs out = some (.ok out') ∧ Explored G (· ∈ cs) out out' := by
  induction cs generalizing out with
  | nil => exact ⟨out, rfl, .nil⟩
  | cons c cs ih =>
    rw [forall_mem_cons] at hcs
    by_cases hc : c ∈ out
    · obtain ⟨out', hvisit, hexplored⟩ := ih hcs.2 hfuel
      exact ⟨out', by rw [visit, if_pos hc, hvisit], hexplored.skip hc⟩
    · -- the child is listed before the descent, so less fuel is needed below it
      have hless := unvisited_lt hcs.1.2 hc
      obtain ⟨out', hbelow, hexplored⟩ := hdescend c (out ++ [c]) hcs.1.1 (by omega)
      have hle : unvisited nodes out' ≤ unvisited nodes (out ++ [c]) :=
        unvisited_le hexplored.subset
      obtain ⟨out'', hvisit, hexplored'⟩ := ih hcs.2 (by omega : unvisited nodes out' < fuel + 1)
      refine ⟨out'', ?_, hexplored.cons hc hexplored'⟩
      rw [visit, if_neg hc, hbelow]
      exact hvisit

variable {children : α → Except ε (List α)}

section

variable (hchildren : ∀ a, good a → ∃ cs, children a = .ok cs ∧ ∀ c, c ∈ cs ↔ G a c)

include hchildren

theorem explored_walk (hgood : ∀ a c, G a c → good c ∧ c ∈ nodes) {a : α} (ha : good a)
    (hfuel : unvisited nodes out < fuel) :
    ∃ out', walk children fuel a out = some (.ok out') ∧ Explored G (G a) out out' := by
  induction fuel generalizing a out with
  | zero => cases hfuel
  | succ fuel ih =>
    obtain ⟨cs, hcs, hmem⟩ := hchildren a ha
    obtain ⟨out', hvisit, hexplored⟩ := visit_spec (fun c out hc hout => ih hc hout)
      (fun c (hc : c ∈ cs) => hgood a c ((hmem c).mp hc)) hfuel
    refine ⟨out', by rw [walk, hcs]; exact hvisit, ?_⟩
    rwa [show (· ∈ cs) = G a from funext fun c => propext (hmem c)] at hexplored

/-- **The search is exact.**  With more fuel than there are nodes, it lists what is below the node,
each once. -/
theorem walk_spec (hgood : ∀ a c, G a c → good c ∧ c ∈ nodes) {a : α} (ha : good a)
    (hfuel : nodes.length < fuel) : ∃ out, walk children fuel a [] = some (.ok out) ∧ out.Nodup ∧
      ∀ x, x ∈ out ↔ TransGen G a x := by
  have hunvisited : unvisited nodes [] < fuel := Nat.lt_of_le_of_lt (length_filter_le _ _) hfuel
  obtain ⟨out, hwalk, hexplored⟩ := explored_walk hchildren hgood ha hunvisited
  refine ⟨out, hwalk, hexplored.nodup nodup_nil, fun x => ⟨fun hx => ?_, fun hpath => ?_⟩⟩
  · rcases hexplored.reached x hx with hx | ⟨r, hr, hpath⟩
    · exact absurd hx not_mem_nil
    · exact TransGen.head' hr hpath
  · induction hpath with
    | single hedge => exact hexplored.roots _ hedge
    | tail _ hedge ih => exact hexplored.closed _ ih not_mem_nil _ hedge

end

end Dfs
