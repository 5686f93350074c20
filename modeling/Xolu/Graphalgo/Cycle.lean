/-
# The bounded search for a cycle (pkg/graphalgo/cycle.go)

`WouldCreateCycle` searches breadth first from the target of a new edge for its source.  The budget
is the number of distinct nodes that are visited; once it is exhausted the answer is that there
would be a cycle.  So `false` can be relied on, whatever the size of the graph
(`not_reaches_of_wouldCreateCycle`), and `true` where the budget covers what can be reached
(`exists_wouldCreateCycle`).  Along a chain a round visits a node, and the budget alone ends the
search (`exists_wouldCreateCycle_chain`).
-/
import Mathlib.Data.Set.Card
import Mathlib.Logic.Relation

namespace Xolu.Graphalgo

open List Relation

variable {α : Type} [DecidableEq α]

section

variable {ε : Type} (source : α) (limit : Int) (neighbors : α → Except ε (List α))

/-- The loop of `WouldCreateCycle`; `none` says that the fuel has run out. -/
def cycleLoop : Nat → List α → List α → Option (Except ε Bool)
  | _, [], _ => some (.ok false)
  | 0, _ :: _, _ => none
  | fuel + 1, cur :: queue, visited =>
    if cur = source then some (.ok true)
    else if 0 < limit ∧ limit ≤ visited.length then some (.ok true)
    else if cur ∈ visited then cycleLoop fuel queue visited
    else
      match neighbors cur with
      | .error e => some (.error e)
      | .ok neigh =>
        let visited := cur :: visited
        cycleLoop fuel (queue ++ neigh.filter (· ∉ visited)) visited

/-- `WouldCreateCycle`. -/
def wouldCreateCycle (target : α) (fuel : Nat) : Option (Except ε Bool) :=
  if source = target then some (.ok true) else cycleLoop source limit neighbors fuel [target] []

end

/-! ### The invariant of the loop -/

/-- Edges lead from the one node to the other. -/
def Reaches {α : Type} (neighbors : α → List α) : α → α → Prop :=
  ReflTransGen fun a b => b ∈ neighbors a

/-- Between two rounds every edge out of a visited node leads to one that is visited or queued. -/
structure Frontier {α : Type} (source target : α) (neighbors : α → List α)
    (queue visited : List α) : Prop where
  nodup : visited.Nodup
  missed : source ∉ visited
  start : target ∈ visited ∨ target ∈ queue
  reached : ∀ a, a ∈ visited ∨ a ∈ queue → Reaches neighbors target a
  closed : ∀ v ∈ visited, ∀ n ∈ neighbors v, n ∈ visited ∨ n ∈ queue

variable {source target cur : α} {neighbors : α → List α} {queue visited rest : List α}

omit [DecidableEq α] in
theorem Frontier.init : Frontier source target neighbors [target] [] where
  nodup := nodup_nil
  missed := not_mem_nil
  start := .inr (mem_singleton_self _)
  reached a ha := by
    rw [mem_singleton.mp (ha.resolve_left not_mem_nil)]
    exact .refl
  closed v hv := absurd hv not_mem_nil

omit [DecidableEq α] in
/-- A queued node that is visited already. -/
theorem Frontier.skip (h : Frontier source target neighbors (cur :: queue) visited)
    (hcur : cur ∈ visited) : Frontier source target neighbors queue visited := by
  have hkept : ∀ a, a ∈ visited ∨ a ∈ cur :: queue → a ∈ visited ∨ a ∈ queue := by
    rintro a (ha | ha)
    · exact .inl ha
    · rcases mem_cons.mp ha with rfl | ha
      · exact .inl hcur
      · exact .inr ha
  exact ⟨h.nodup, h.missed, hkept _ h.start,
    fun a ha => h.reached a (ha.imp_right (mem_cons_of_mem _)),
    fun v hv n hn => hkept n (h.closed v hv n hn)⟩

/-- A queued node that is visited now. -/
theorem Frontier.visit (h : Frontier source target neighbors (cur :: queue) visited)
    (hsource : cur ≠ source) (hcur : cur ∉ visited) : Frontier source target neighbors
      (queue ++ (neighbors cur).filter (· ∉ cur :: visited)) (cur :: visited) := by
  have hkept : ∀ a, a ∈ visited ∨ a ∈ cur :: queue → a ∈ cur :: visited ∨
      a ∈ queue ++ (neighbors cur).filter (· ∉ cur :: visited) := by
    simp only [mem_cons, mem_append]
    tauto
  refine ⟨nodup_cons.mpr ⟨hcur, h.nodup⟩, not_mem_cons_of_ne_of_not_mem hsource.symm h.missed,
    hkept _ h.start, ?_, ?_⟩
  · have hreached := h.reached cur (.inr mem_cons_self)
    rintro a (ha | ha)
    · rcases mem_cons.mp ha with rfl | ha
      · exact hreached
      · exact h.reached a (.inl ha)
    · rcases mem_append.mp ha with ha | ha
      · exact h.reached a (.inr (mem_cons_of_mem _ ha))
      · exact hreached.tail (mem_filter.mp ha).1
  · refine forall_mem_cons.mpr ⟨fun n hn => ?_, fun v hv n hn => hkept n (h.closed v hv n hn)⟩
    by_cases hold : n ∈ cur :: visited
    · exact .inl hold
    · exact .inr (mem_append_right _ (mem_filter.mpr ⟨hn, by simpa using hold⟩))

omit [DecidableEq α] in
/-- With an empty queue all that can be reached has been visited. -/
theorem Frontier.not_reaches (h : Frontier source target neighbors [] visited) :
    ¬ Reaches neighbors target source := by
  have hall : ∀ a, Reaches neighbors target a → a ∈ visited := by
    intro a hreach
    induction hreach with
    | refl => exact h.start.resolve_right not_mem_nil
    | tail _ hedge ih => exact (h.closed _ ih _ hedge).resolve_right not_mem_nil
  exact fun hreach => h.missed (hall source hreach)

/-! ### Soundness -/

variable {ε : Type} {limit : Int}

theorem Frontier.not_reaches_of_cycleLoop {fuel : Nat}
    (h : Frontier source target neighbors queue visited)
    (hs : cycleLoop source limit (fun a => (.ok (neighbors a) : Except ε (List α))) fuel queue
      visited = some (.ok false)) : ¬ Reaches neighbors target source := by
  induction fuel generalizing queue visited with
  | zero =>
    cases queue with
    | nil => exact h.not_reaches
    | cons cur queue => cases hs
  | succ fuel ih =>
    cases queue with
    | nil => exact h.not_reaches
    | cons cur queue =>
      rw [cycleLoop] at hs
      split_ifs at hs with hcur hspent hseen
      · cases hs
      · cases hs
      · exact ih (h.skip hseen) hs
      · exact ih (h.visit hcur hseen) hs

/-- **The search is sound.**  If it finds no cycle, no edges lead from the target to the source. -/
theorem not_reaches_of_wouldCreateCycle {fuel : Nat} (h : wouldCreateCycle source limit
    (fun a => (.ok (neighbors a) : Except ε (List α))) target fuel = some (.ok false)) :
    ¬ Reaches neighbors target source := by
  unfold wouldCreateCycle at h
  split_ifs at h
  · cases h
  · exact Frontier.init.not_reaches_of_cycleLoop h

/-! ### Termination -/

/-- With one edge out of a node the queue holds one node, which is not visited. -/
theorem exists_cycleLoop_chain {next : α → Option α} {limit fuel : Nat} (hpos : 0 < limit)
    (hqueue : queue.length ≤ 1) (hnew : ∀ a ∈ queue, a ∉ visited) (hle : visited.length ≤ limit)
    (hfuel : limit < fuel + visited.length) :
    ∃ b, cycleLoop source limit (fun a => (.ok (next a).toList : Except ε (List α))) fuel queue
      visited = some (.ok b) := by
  induction fuel generalizing queue visited with
  | zero => omega
  | succ fuel ih =>
    match queue with
    | [] => exact ⟨false, rfl⟩
    | [cur] =>
      rw [cycleLoop]
      split_ifs with hcur hspent hseen
      · exact ⟨true, rfl⟩
      · exact ⟨true, rfl⟩
      · exact absurd hseen (hnew cur mem_cons_self)
      · refine ih ?_ ?_ ?_ ?_
        · exact (length_filter_le ..).trans (Option.length_toList_le)
        · exact fun a ha => of_decide_eq_true (mem_filter.mp ha).2
        · rw [length_cons]
          omega
        · rw [length_cons]
          omega

/-- A positive limit ends the search along a chain. -/
theorem exists_wouldCreateCycle_chain {next : α → Option α} {limit : Nat} (hpos : 0 < limit) :
    ∃ b, wouldCreateCycle source limit (fun a => (.ok (next a).toList : Except ε (List α))) target
      (limit + 1) = some (.ok b) := by
  unfold wouldCreateCycle
  split_ifs
  · exact ⟨true, rfl⟩
  · exact exists_cycleLoop_chain hpos le_rfl (by simp) (Nat.zero_le _) (Nat.lt_succ_self _)

section

variable (hfinite : {a | Reaches neighbors target a}.Finite)
include hfinite

theorem Frontier.length_le (h : Frontier source target neighbors queue visited) :
    visited.length ≤ {a | Reaches neighbors target a}.ncard := by
  rw [← toFinset_card_of_nodup h.nodup, ← Set.ncard_coe_finset]
  exact Set.ncard_le_ncard (fun a ha => h.reached a (.inl (by simpa using ha))) hfinite

/-- The loop ends, and if it finds a cycle there is one unless the budget is spent. -/
theorem Frontier.exists_cycleLoop (h : Frontier source target neighbors queue visited) :
    ∃ b n, (∀ fuel, cycleLoop source limit (fun a => (.ok (neighbors a) : Except ε (List α)))
        (fuel + n) queue visited = some (.ok b)) ∧
      (limit ≤ 0 ∨ {a | Reaches neighbors target a}.ncard < limit →
        b = true → Reaches neighbors target source) := by
  -- a round takes a node off the queue or leaves fewer nodes to visit
  induction hleft : {a | Reaches neighbors target a}.ncard - visited.length
    using Nat.strong_induction_on generalizing queue visited with
  | _ left ihleft =>
    induction queue with
    | nil =>
      exact ⟨false, 0, fun fuel => by cases fuel <;> rfl, fun _ hb => absurd hb Bool.false_ne_true⟩
    | cons cur queue ihqueue =>
      by_cases hcur : cur = source
      · refine ⟨true, 1, fun fuel => by simp [cycleLoop, hcur], fun _ _ => ?_⟩
        exact hcur ▸ h.reached cur (.inr mem_cons_self)
      by_cases hlimit : 0 < limit ∧ limit ≤ visited.length
      · refine ⟨true, 1, fun fuel => by simp [cycleLoop, hlimit], fun hcov => ?_⟩
        have := h.length_le hfinite
        omega
      by_cases hseen : cur ∈ visited
      · obtain ⟨b, n, hloop, hb⟩ := ihqueue (h.skip hseen)
        refine ⟨b, n + 1, fun fuel => ?_, hb⟩
        rw [← Nat.add_assoc, cycleLoop, if_neg hcur, if_neg hlimit, if_pos hseen, hloop]
      · have hnext := h.visit hcur hseen
        have hle := hnext.length_le hfinite
        rw [length_cons] at hle
        obtain ⟨b, n, hloop, hb⟩ := ihleft _ (by rw [length_cons]; omega) hnext rfl
        refine ⟨b, n + 1, fun fuel => ?_, hb⟩
        rw [← Nat.add_assoc, cycleLoop, if_neg hcur, if_neg hlimit, if_neg hseen]
        exact hloop fuel

/-- **The search is exact within its budget.** -/
theorem exists_wouldCreateCycle :
    ∃ b n, (∀ fuel, wouldCreateCycle source limit
        (fun a => (.ok (neighbors a) : Except ε (List α))) target (fuel + n) = some (.ok b)) ∧
      (source = target ∨ Reaches neighbors target source → b = true) ∧
      (limit ≤ 0 ∨ {a | Reaches neighbors target a}.ncard < limit →
        b = true → source = target ∨ Reaches neighbors target source) := by
  by_cases hself : source = target
  · exact ⟨true, 0, fun _ => if_pos hself, fun _ => rfl, fun _ _ => .inl hself⟩
  · obtain ⟨b, n, hloop, hexact⟩ := Frontier.init.exists_cycleLoop hfinite
    refine ⟨b, n, fun fuel => ?_, fun h => ?_, fun hcov hb => .inr (hexact hcov hb)⟩
    · rw [wouldCreateCycle, if_neg hself, hloop]
    · by_contra hb
      rw [Bool.not_eq_true] at hb
      exact Frontier.init.not_reaches_of_cycleLoop (hb ▸ hloop 0) (h.resolve_left hself)

end

theorem exists_wouldCreateCycle_ring :
    ∃ n, ∀ fuel, wouldCreateCycle 0 2 (fun a => (.ok [a + 1] : Except Unit (List (Fin 3))))
      1 (fuel + n) = some (.ok true) := by
  obtain ⟨b, n, hrun, hreach, -⟩ :=
    @exists_wouldCreateCycle (Fin 3) _ 0 1 (fun a => [a + 1]) Unit 2 (Set.toFinite _)
  have hpath : Reaches (fun a : Fin 3 => [a + 1]) 1 0 :=
    .tail (.single (mem_singleton_self _)) (mem_singleton_self _)
  exact ⟨n, hreach (.inr hpath) ▸ hrun⟩

end Xolu.Graphalgo
