/-
# Where a subject is, and what is in it (pkg/obj/position.go, pkg/obj/capacity_contents.go)

`ResolvePosition` follows the container references of a subject to one that is in no container, and
gives up after a thousand subjects; `TransitiveContents` goes the other way.  The guard of a
placement allows chains that are longer, and `Detach` does not look at the contents of a subject,
so that their references lead nowhere.

`TransitiveContents` is exact in every state.  `positioned_iff` says in which runs positions can be
resolved: those whose placements keep all chains short and whose detached subjects are empty.
-/
import Xolu.Obj.Forest
import Xolu.Lib.Dfs
import Mathlib.Data.List.Sort
import Mathlib.Data.String.Basic

namespace Xolu.Obj

open Function List Graphalgo Pointers Relation Runs Nat

/-- Where a subject is, with the containers from the inside out. -/
structure ResolvedPosition where
  kind : PositionKind
  locLeafID : String
  chain : List String
deriving DecidableEq, Repr

namespace Tables

variable {F : Type}

/-- How many subjects a chain may have. -/
def chainLimit : Nat := 1000

/-- The error of a chain that is too long. -/
def tooDeep (ref : String) : ObjError :=
  .validation (s!"invariant violation: containment chain for {ref.quote} exceeded {chainLimit} " ++
    "hops -- the write-time cycle guard should make this impossible")

/-- The loop of `ResolvePosition`, while the chain may have so many more subjects, with the one the
loop is at, which is its last. -/
def resolve (t : Tables F) (ref : String) :
    Nat → List String → String → Except ObjError ResolvedPosition
  | 0, _, _ => .error (tooDeep ref)
  | left + 1, chain, cur =>
    match t.get cur with
    | .error e => .error e
    | .ok (_, p) =>
      match p.kind with
      | .locLeaf | .unassigned => .ok ⟨p.kind, p.locLeafID.getD "", chain⟩
      -- one container further out
      | .obj =>
        let cur := p.containsRef.getD ""
        t.resolve ref left (chain ++ [cur]) cur

/-- `ResolvePosition`. -/
def resolvePosition (t : Tables F) (ref : String) : Except ObjError ResolvedPosition :=
  t.resolve ref chainLimit [ref] ref

/-- `DirectContents`, sorted as the query orders them. -/
def directContents (t : Tables F) (containerRef : String) : Except ObjError (List String) :=
  match t.get containerRef with
  | .error e => .error e
  | .ok _ => .ok (((t.positions.filter (·.containsRef = some containerRef)).map
      Position.subjectRef).insertionSort (· ≤ ·))

/-- `TransitiveContents`; what is visited is what is listed. -/
def transitiveContents (t : Tables F) (containerRef : String) :
    Option (Except ObjError (List String)) :=
  Dfs.walk t.directContents (t.positions.length + 1) containerRef []

/-- The chain of containers of a subject, and the position at its end. -/
inductive Ends (t : Tables F) : String → List String → Position → Prop
  | here {x p} : t.position x = some p → p.containsRef = none → Ends t x [x] p
  | inside {x c chain p} : t.containerOf x = some c → Ends t c chain p → Ends t x (x :: chain) p

variable {t : Tables F} {x c : String} {p : Position} {chain : List String}

theorem get_of_position (h : t.position x = some p) : ∃ y, t.get x = .ok (y, p) := by
  have hattached : t.Attached x := isSome_position.mp (Option.isSome_of_mem h)
  obtain ⟨y, hy⟩ := Option.isSome_iff_exists.mp (isSome_subject.mpr hattached)
  exact ⟨y, by simp only [get, hy, h]⟩

/-! ### Contents -/

theorem directContents_of_attached (h : t.Attached c) :
    ∃ refs, t.directContents c = .ok refs ∧ ∀ x, x ∈ refs ↔ t.containerOf x = some c := by
  obtain ⟨p, hp⟩ := h.exists_position
  obtain ⟨y, hget⟩ := get_of_position hp
  refine ⟨_, by rw [directContents, hget], fun x => ?_⟩
  rw [mem_insertionSort, mem_map, containerOf_eq_some]
  refine exists_congr fun q => ?_
  rw [mem_filter, decide_eq_true_eq]
  constructor
  · rintro ⟨⟨hmem, hc⟩, href⟩
    exact ⟨hmem, href, hc⟩
  · rintro ⟨hmem, href, hc⟩
    exact ⟨⟨hmem, hc⟩, href⟩

/-- `TransitiveContents` of every attached subject lists, each once, the attached subjects whose
chain of containers passes through it. -/
def ContentsExact (t : Tables F) : Prop :=
  ∀ c, t.Attached c → ∃ out, t.transitiveContents c = some (.ok out) ∧ out.Nodup ∧
    ∀ x, x ∈ out ↔ t.Attached x ∧ TransGen (Link t.containerOf) x c

theorem contentsExact (t : Tables F) : t.ContentsExact := by
  intro c hc
  have hrow : ∀ a x, t.containerOf x = some a →
      t.Attached x ∧ x ∈ t.positions.map Position.subjectRef := by
    intro a x hx
    have hattached := attached_of_containerOf hx
    exact ⟨hattached, t.positioned ▸ hattached⟩
  obtain ⟨out, hwalk, hnd, hmem⟩ := Dfs.walk_spec (G := fun a x => t.containerOf x = some a)
    (fun a ha => directContents_of_attached ha) hrow hc
    (by rw [length_map]; exact lt_succ_self _)
  refine ⟨out, hwalk, hnd, fun x => ?_⟩
  have hswap : TransGen (fun a x => t.containerOf x = some a) c x ↔
      TransGen (Link t.containerOf) x c := transGen_swap
  rw [hmem, hswap]
  refine (and_iff_right_of_imp fun hpath => ?_).symm
  obtain ⟨a, hlink, -⟩ := TransGen.head'_iff.mp hpath
  exact attached_of_containerOf hlink

/-! ### Chains -/

theorem resolve_of_ends {left : Nat} {ref : String} (before : List String)
    (h : t.Ends x chain p) : t.resolve ref left (before ++ [x]) x =
      if chain.length ≤ left then .ok ⟨p.kind, p.locLeafID.getD "", before ++ chain⟩
      else .error (tooDeep ref) := by
  induction h generalizing left before with
  | @here x p hp hnone =>
    cases left with
    | zero => rfl
    | succ left =>
      obtain ⟨y, hget⟩ := get_of_position hp
      have hkind : p.kind ≠ .obj := fun hobj => by simpa [hnone] using p.contained_iff.mpr hobj
      rw [if_pos (by simp), resolve, hget]
      dsimp only
      split
      · rfl
      · rfl
      · exact absurd ‹_› hkind
  | @inside x c chain p hc _ ih =>
    cases left with
    | zero => rfl
    | succ left =>
      obtain ⟨q, hq, hqc⟩ := Option.bind_eq_some_iff.mp hc
      obtain ⟨y, hget⟩ := get_of_position hq
      have hkind : q.kind = .obj := q.contained_iff.mp (by simp [hqc])
      rw [resolve, hget]
      simp only [hkind, hqc, Option.getD_some]
      rw [ih, append_assoc, singleton_append]
      simp only [length_cons, add_le_add_iff_right]

/-- A position is resolved if its chain is short. -/
theorem resolvePosition_of_ends (h : t.Ends x chain p) : t.resolvePosition x =
    if chain.length ≤ chainLimit then .ok ⟨p.kind, p.locLeafID.getD "", chain⟩
    else .error (tooDeep x) :=
  resolve_of_ends [] h

theorem Ends.attached (h : t.Ends x chain p) : t.Attached x := by
  cases h with
  | here hp _ => exact isSome_position.mp (Option.isSome_of_mem hp)
  | inside hc _ => exact attached_of_containerOf hc

theorem Ends.lt_length {n : Nat} {y : String} (h : t.Ends x chain p)
    (hsteps : Steps t.containerOf n x y) : n < chain.length := by
  induction h generalizing n with
  | here hp hnone =>
    cases n with
    | zero => exact zero_lt_one
    | succ n =>
      obtain ⟨c, hc, -⟩ := hsteps
      rw [containerOf, hp, Option.bind_some, hnone] at hc
      cases hc
  | inside hc _ ih =>
    cases n with
    | zero => exact zero_lt_succ _
    | succ n =>
      obtain ⟨c', hc', hrest⟩ := hsteps
      rw [hc, Option.some.injEq] at hc'
      exact succ_lt_succ (ih (hc' ▸ hrest))

/-- `ResolvePosition` of every attached subject returns the position at the end of its chain. -/
def Positioned (t : Tables F) : Prop :=
  ∀ x, t.Attached x → ∃ chain p, t.Ends x chain p ∧
    t.resolvePosition x = .ok ⟨p.kind, p.locLeafID.getD "", chain⟩

/-- No reference is to a subject that is not attached. -/
def Closed (t : Tables F) : Prop := ∀ x c, t.containerOf x = some c → t.Attached c

/-- Every chain has at most `chainLimit` subjects. -/
def Short (t : Tables F) : Prop :=
  ∀ x n y, t.Attached x → Steps t.containerOf n x y → n < chainLimit

theorem exists_ends {n : Nat} (h : t.Closed) (hx : t.Attached x)
    (hn : ∀ m y, Steps t.containerOf m x y → m < n) :
    ∃ chain p, t.Ends x chain p ∧ chain.length ≤ n := by
  induction n generalizing x with
  | zero => exact absurd (hn 0 x rfl) (lt_irrefl 0)
  | succ n ih =>
    obtain ⟨p, hp⟩ := hx.exists_position
    rcases hc : p.containsRef with - | c
    · exact ⟨[x], p, .here hp hc, succ_le_succ (zero_le n)⟩
    · have hcontainer : t.containerOf x = some c := by rw [containerOf, hp, Option.bind_some, hc]
      obtain ⟨chain, q, hends, hle⟩ := ih (h x c hcontainer) fun m y hsteps =>
        lt_of_succ_lt_succ (hn (m + 1) y ⟨c, hcontainer, hsteps⟩)
      exact ⟨x :: chain, q, .inside hcontainer hends, succ_le_succ hle⟩

/-- All positions can be resolved if no reference leads nowhere and all chains are short. -/
theorem positioned_iff_closed_short : t.Positioned ↔ t.Closed ∧ t.Short := by
  constructor
  · intro h
    refine ⟨fun x c hc => ?_, fun x n y hx hsteps => ?_⟩
    · obtain ⟨chain, p, hends, -⟩ := h x (attached_of_containerOf hc)
      cases hends with
      | here hp hnone =>
        rw [containerOf, hp, Option.bind_some, hnone] at hc
        cases hc
      | inside hc' hrest =>
        rw [hc, Option.some.injEq] at hc'
        exact hc' ▸ hrest.attached
    · obtain ⟨chain, p, hends, hok⟩ := h x hx
      rw [resolvePosition_of_ends hends] at hok
      have hle : chain.length ≤ chainLimit := by
        by_contra hlong
        rw [if_neg hlong] at hok
        cases hok
      exact (hends.lt_length hsteps).trans_le hle
  · rintro ⟨hclosed, hshort⟩ x hx
    obtain ⟨chain, p, hends, hle⟩ := exists_ends hclosed hx fun m y => hshort x m y hx
    refine ⟨chain, p, hends, ?_⟩
    rw [resolvePosition_of_ends hends, if_pos hle]

/-! ### The condition -/

variable {ref container : String}

/-- However deep a subject is in `ref`, and `ref` will be in `container`, no more than `chainLimit`
subjects are in each other. -/
def Shallow (t : Tables F) (ref container : String) : Prop :=
  ∀ i j x y, Steps t.containerOf i x ref → Steps t.containerOf j container y →
    i + j + 2 ≤ chainLimit

/-- Placements keep all chains short, and what is detached is empty. -/
def Effect.KeepsPositions : t.Effect → Prop
  | .place ref container _ => t.Shallow ref container
  | .promote ref container _ _ => t.Shallow ref container
  | .detach ref _ => t.contentsCount ref = 0
  | _ => True

variable {t' : Tables F}

/-- References that are dropped. -/
theorem Short.drop (h : t.Short) (hattached : ∀ x, t'.Attached x → t.Attached x)
    (hdrop : t'.containerOf = update t.containerOf ref none) : t'.Short := by
  intro x n y hx hsteps
  refine h x n y (hattached x hx) (hsteps.mono fun a b hlink => ?_)
  rw [hdrop] at hlink
  by_cases ha : a = ref
  · rw [ha, update_self] at hlink
    cases hlink
  · rwa [update_of_ne ha] at hlink

theorem containerOf_of_drop (h : update t.containerOf ref none x = some c) :
    x ≠ ref ∧ t.containerOf x = some c := by
  by_cases hx : x = ref
  · rw [hx, update_self] at h
    cases h
  · rw [update_of_ne hx] at h
    exact ⟨hx, h⟩

/-- Only the references and who is attached matter. -/
theorem Positioned.congr (h : t.Positioned) (hattached : ∀ x, t'.Attached x ↔ t.Attached x)
    (hcontainer : t'.containerOf = t.containerOf) : t'.Positioned := by
  rw [positioned_iff_closed_short] at h ⊢
  refine ⟨fun x c hc => ?_, fun x n y hx hsteps => ?_⟩
  · rw [hcontainer] at hc
    exact (hattached c).mpr (h.1 x c hc)
  · rw [hcontainer] at hsteps
    exact h.2 x n y ((hattached x).mp hx) hsteps

theorem positioned_attached {capacity : Capacity F} {hnew : ¬ t.Attached ref}
    (h : t.Positioned) : (t.attached ref capacity hnew).Positioned := by
  rw [positioned_iff_closed_short] at h ⊢
  have hcontainer := containerOf_attached capacity hnew
  have hattached : ∀ x, (t.attached ref capacity hnew).Attached x ↔ t.Attached x ∨ x = ref :=
    fun x => attached_attached_iff capacity hnew
  refine ⟨fun x c hc => ?_, fun x n y hx hsteps => ?_⟩
  · rw [hcontainer] at hc
    exact (hattached c).mpr (.inl (h.1 x c hc))
  · rw [hcontainer] at hsteps
    rcases (hattached x).mp hx with hx | rfl
    · exact h.2 x n y hx hsteps
    · -- the new subject is in no container
      cases n with
      | zero => decide
      | succ n =>
        obtain ⟨c, hc, -⟩ := hsteps
        rw [containerOf_eq_none hnew] at hc
        cases hc

theorem positioned_place_iff (hforest : Acyclic t.containerOf) (h : t.Positioned)
    (hp : t.Placeable ref container) :
    (t.place ref container).Positioned ↔ t.Shallow ref container := by
  have hapart := not_reaches_of_apart hp.apart
  rw [positioned_iff_closed_short] at h ⊢
  have hclosed : (t.place ref container).Closed := by
    intro x c hc
    rw [containerOf_place hp.attached] at hc
    rw [attached_place]
    by_cases hx : x = ref
    · rw [hx, update_self, Option.some.injEq] at hc
      exact hc ▸ hp.container_attached
    · rw [update_of_ne hx] at hc
      exact h.1 x c hc
  rw [and_iff_right hclosed]
  unfold Short
  rw [containerOf_place hp.attached]
  constructor
  · -- the two parts and the new reference make one chain
    intro hshort i j x y hi hj
    have hx : t.Attached x := by
      cases i with
      | zero => exact hi ▸ hp.attached
      | succ i =>
        obtain ⟨c, hc, -⟩ := hi
        exact attached_of_containerOf hc
    have hlt := hshort x _ y (attached_place.mpr hx) (hforest.steps_redirect hapart hi hj)
    omega
  · intro hshallow x n y hx hsteps
    -- a chain passes the new reference at most once, since the container is apart
    rcases steps_of_update hapart hsteps with hold | ⟨i, j, rfl, hi, hj⟩
    · exact h.2 x n y (attached_place.mp hx) hold
    · have hle := hshallow i j x y hi hj
      omega

/-- The positions after the rows of a subject are deleted. -/
theorem positioned_delete_iff (hforest : Acyclic t.containerOf)
    (h : t.Positioned) (hattached : ∀ x, t'.Attached x ↔ t.Attached x ∧ x ≠ ref)
    (hdrop : t'.containerOf = update t.containerOf ref none) :
    t'.Positioned ↔ t.contentsCount ref = 0 := by
  rw [positioned_iff_closed_short] at h ⊢
  rw [and_iff_left (h.2.drop (fun x hx => ((hattached x).mp hx).1) hdrop), contentsCount_eq_zero]
  constructor
  · intro hclosed x hx
    have hne : x ≠ ref := fun e => hforest ref (.single (e ▸ hx))
    have hc : t'.containerOf x = some ref := by rwa [hdrop, update_of_ne hne]
    exact ((hattached ref).mp (hclosed x ref hc)).2 rfl
  · intro hempty x c hc
    rw [hdrop] at hc
    obtain ⟨-, hc⟩ := containerOf_of_drop hc
    exact (hattached c).mpr ⟨h.1 x c hc, fun e => hempty x (e ▸ hc)⟩

theorem positioned_apply_iff (hforest : Acyclic t.containerOf) (h : t.Positioned)
    (e : t.Effect) : e.apply.Positioned ↔ e.KeepsPositions := by
  cases e with
  | none => exact iff_of_true h trivial
  | attach ref capacity hnew => exact iff_of_true (positioned_attached h) trivial
  | place ref container hp => exact positioned_place_iff hforest h hp
  | promote ref container capacity hp =>
    have hcontainer := containerOf_attached capacity hp.fresh
    have hplace := positioned_place_iff (hcontainer ▸ hforest) (positioned_attached h)
      ((placeable_attached_iff capacity hp.ne hp.fresh).mpr hp)
    unfold Shallow at hplace
    rw [hcontainer] at hplace
    exact hplace
  | relocate r =>
    refine iff_of_true ?_ trivial
    rw [positioned_iff_closed_short] at h ⊢
    refine ⟨fun x c hc => ?_, h.2.drop (fun _ hx => hx) containerOf_relocateInTx⟩
    rw [Effect.apply, containerOf_relocateInTx] at hc
    exact h.1 x c (containerOf_of_drop hc).2
  | detach ref hattached =>
    exact positioned_delete_iff hforest h (fun _ => attached_detached) containerOf_detached
  | demote ref hattached hempty =>
    refine iff_of_true ?_ trivial
    refine (positioned_delete_iff hforest h (fun _ => ?_) ?_).mpr hempty
    · rw [Effect.apply, attached_detached, attached_relinquish]
    · rw [Effect.apply, containerOf_detached, containerOf_relinquish]
  | retire ref hattached =>
    refine iff_of_true (h.congr (fun x => ?_) rfl) trivial
    rw [Effect.apply, retired, attached_append, attached_alter]
  | setCapacity ref capacity =>
    refine iff_of_true (h.congr (fun x => ?_) rfl) trivial
    rw [Effect.apply, withCapacity, attached_alter]

end Tables

namespace ObjSite

variable {F : Type}

/-- After a step every attached subject has a position that can be resolved, and its contents can be
listed. -/
def Locates (s : ObjSite F) (c : ObjCmd F) : Prop :=
  (s.step c).tables.Positioned ∧ (s.step c).tables.ContentsExact

/-- What a step needs for the positions. -/
def KeepsPositions (s : ObjSite F) (c : ObjCmd F) : Prop := (s.effect c).KeepsPositions

theorem locates_iff_keepsPositions {s : ObjSite F} (hforest : Acyclic s.tables.containerOf)
    (h : s.tables.Positioned) (c : ObjCmd F) : s.Locates c ↔ s.KeepsPositions c := by
  unfold Locates KeepsPositions
  rw [and_iff_left (Tables.contentsExact _), s.tables_step c]
  exact Tables.positioned_apply_iff hforest h _

/-- **Resolvable positions.**  In a run of any commands, after every step the position of every
attached subject can be resolved and its contents listed, if and only if every placement keeps all
chains of containers at a thousand subjects or fewer, and every subject that is detached has no
contents. -/
theorem locates_iff (tenant : String) (now : Int) (cmds : List (ObjCmd F)) :
    Along step Locates (init tenant now) cmds ↔
      Along step KeepsPositions (init tenant now) cmds := by
  refine along_iff_of_invariant
    (I := fun s : ObjSite F => Acyclic s.tables.containerOf ∧ s.tables.Positioned)
    (fun s c hi _ hkeeps => ⟨acyclic_step s c hi.1, ?_⟩)
    (fun s c hi _ => locates_iff_keepsPositions hi.1 hi.2 c)
    ⟨Tables.acyclic_empty, fun x hx => absurd hx not_mem_nil⟩ .trivial
  exact ((locates_iff_keepsPositions hi.1 hi.2 c).mpr hkeeps).1

/-- `c` is detached. -/
def detachContainer : List (ObjCmd Nat) := [.readDetach "c", .commit 0]

/-- The tables then. -/
def containerGone : Tables Nat := (run step (init "t" 0) (putIn ++ detachContainer)).tables

/-- The container of `a` is detached, and `a` leads nowhere. -/
theorem detached_container_unresolved : containerGone.Attached "a" ∧
    containerGone.resolvePosition "a" = .error (.notAttached "c") ∧
      ¬ Along step Locates (init "t" 0) (putIn ++ detachContainer) := by
  have hattached : containerGone.Attached "a" := by decide +kernel
  have herror : containerGone.resolvePosition "a" = .error (.notAttached "c") := by decide +kernel
  refine ⟨hattached, herror, fun h => ?_⟩
  obtain ⟨-, -, hlast, -⟩ := along_append.mp h
  obtain ⟨chain, p, -, hok⟩ := hlast.1 "a" hattached
  exact absurd (herror.symm.trans hok) nofun

end ObjSite

end Xolu.Obj
