/-
# The claims lock and the writer connection

Two resources of a tenant are held at most once: the lock of the dxp claims cache, and
the connection of the writer pool, which `NewSQLiteStore` limits to one.  `Save`,
`Commit` and the callers of `FsmWalkInTx` open their transaction first and look into the
claims inside it.  `Reserve` and `Validate` of the bal adapter lock the claims first and
read the balance through the same writer pool.

A request is the list of acquisitions and releases its code makes.  With two resources a
cycle of waiting requests is a holder of each that wants the other (`cyclic_iff`), and
`Crosses` is the one kind of step that makes such a pair.
-/
import Mathlib.Logic.Relation
import Xolu.Lib.Run
import Xolu.Dxp.Cache

namespace Xolu.Storage

open List Function

/-- The lock of the claims and the one connection that writes. -/
inductive Resource where
  | claims | writer
  deriving DecidableEq, Repr

/-- There are two of them. -/
def Resource.other : Resource → Resource
  | .claims => .writer
  | .writer => .claims

@[simp] theorem Resource.other_other (r : Resource) : r.other.other = r := by
  cases r <;> rfl

theorem Resource.other_ne (r : Resource) : r.other ≠ r := by
  cases r <;> decide

variable {r : Resource}

theorem Resource.eq_other {x : Resource} (h : x ≠ r) : x = r.other := by
  cases r <;> cases x <;> first | rfl | exact absurd rfl h

/-- What a request does to a resource. -/
inductive LockOp where
  | acquire (r : Resource)
  | release (r : Resource)
  deriving DecidableEq, Repr

/-! ### What the requests acquire -/

/-- Requests of one tenant.  `lookup` says that a claims cache is set and the call gets as
far as `checkDxpEntityHold`; `walks` counts the calls of `FsmWalkInTx` that lock it.  A
reservation can be refused before it locks anything. -/
inductive LockRequest where
  | save (lookup : Bool)
  | commit (lookup : Bool) (walks : Nat)
  | walk (walks : Nat)
  | reserve (refused : Bool)
  | validate (weight : Dxp.Weight)
  deriving DecidableEq, Repr

/-- `claims.Lock`, `claims.Unlock`, as often as the transaction looks into the claims. -/
def lookups : Nat → List LockOp
  | 0 => []
  | k + 1 => .acquire .claims :: .release .claims :: lookups k

/-- `BeginTx`, the lookups, and `Commit` or `Rollback`. -/
def inTx (k : Nat) : List LockOp := .acquire .writer :: (lookups k ++ [.release .writer])

/-- `balanceAndFloor` under the claims lock. -/
def balanceUnderLock : List LockOp :=
  [.acquire .claims, .acquire .writer, .release .writer, .release .claims]

/-- What a request acquires and releases, in order. -/
def LockRequest.program : LockRequest → List LockOp
  | .save lookup => inTx lookup.toNat
  | .commit lookup walks => inTx (lookup.toNat + walks)
  | .walk walks => inTx walks
  | .reserve refused => if refused then [] else balanceUnderLock
  | .validate .optimistic => []
  | .validate .pessimistic => balanceUnderLock

/-- What is left of a program, and the resources held at that point. -/
inductive Rest : List LockOp → List Resource → Prop
  | tx (k : Nat) : Rest (inTx k) []
  | open (k : Nat) : Rest (lookups k ++ [.release .writer]) [.writer]
  | locked (k : Nat) :
      Rest (.release .claims :: (lookups k ++ [.release .writer])) [.claims, .writer]
  | bal : Rest balanceUnderLock []
  | balLocked : Rest [.acquire .writer, .release .writer, .release .claims] [.claims]
  | balReading : Rest [.release .writer, .release .claims] [.writer, .claims]
  | balRead : Rest [.release .claims] [.claims]
  | done : Rest [] []

theorem LockRequest.rest_program (q : LockRequest) : Rest q.program [] := by
  cases q with
  | save | commit | walk => exact .tx _
  | reserve refused => cases refused <;> constructor
  | validate weight => cases weight <;> constructor

variable {o : List Resource}

theorem Rest.acquire {p : List LockOp} (h : Rest (.acquire r :: p) o) :
    r ∉ o ∧ ∃ o', Rest p o' ∧ ∀ x, x ∈ o' ↔ x = r ∨ x ∈ o := by
  generalize hq : LockOp.acquire r :: p = q at h
  cases h with
  | tx k =>
    obtain ⟨⟨⟩, rfl⟩ := cons.inj hq
    exact ⟨not_mem_nil, _, .open k, by simp⟩
  | «open» k =>
    cases k with
    | zero => cases hq
    | succ k =>
      obtain ⟨⟨⟩, rfl⟩ := cons.inj hq
      exact ⟨by decide, _, .locked k, by simp⟩
  | bal =>
    obtain ⟨⟨⟩, rfl⟩ := cons.inj hq
    exact ⟨not_mem_nil, _, .balLocked, by simp⟩
  | balLocked =>
    obtain ⟨⟨⟩, rfl⟩ := cons.inj hq
    exact ⟨by decide, _, .balReading, by simp⟩
  | _ => cases hq

theorem Rest.release {p : List LockOp} (h : Rest (.release r :: p) o) :
    r ∈ o ∧ ∃ o', Rest p o' ∧ ∀ x, x ∈ o' ↔ x ≠ r ∧ x ∈ o := by
  generalize hq : LockOp.release r :: p = q at h
  cases h with
  | «open» k =>
    cases k with
    | zero =>
      obtain ⟨⟨⟩, rfl⟩ := cons.inj hq
      exact ⟨by simp, _, .done, by simp⟩
    | succ k => cases hq
  | locked k =>
    obtain ⟨⟨⟩, rfl⟩ := cons.inj hq
    exact ⟨by simp, _, .open k, by intro x; cases x <;> simp⟩
  | balReading =>
    obtain ⟨⟨⟩, rfl⟩ := cons.inj hq
    exact ⟨by simp, _, .balRead, by intro x; cases x <;> simp⟩
  | balRead =>
    obtain ⟨⟨⟩, rfl⟩ := cons.inj hq
    exact ⟨by simp, _, .done, by simp⟩
  | _ => cases hq

/-! ### Runs -/

/-- What each request still has to do, and who holds each resource. -/
structure LockState where
  todo : List (List LockOp)
  held : Resource → Option Nat

namespace LockState

/-- Nothing is held, and nobody has come. -/
def init : LockState := ⟨[], fun _ => none⟩

/-- A request arrives, or one goes a step further. -/
inductive Event where
  | arrive (q : LockRequest)
  | advance (i : Nat)
  deriving DecidableEq, Repr

section

variable (s : LockState)

/-- A request that wants a held resource stays where it is. -/
def step : Event → LockState
  | .arrive q => { s with todo := s.todo ++ [q.program] }
  | .advance i =>
    match s.todo[i]? with
    | some (.acquire r :: p) =>
      if s.held r = none then ⟨s.todo.set i p, update s.held r (some i)⟩ else s
    | some (.release r :: p) => ⟨s.todo.set i p, update s.held r none⟩
    | _ => s

/-- Request `i` is at `acquire r`. -/
def Wants (i : Nat) (r : Resource) : Prop := (s.todo[i]?).bind head? = some (.acquire r)
deriving Decidable

/-- Request `i` waits for a resource that `j` holds. -/
def Waits (i j : Nat) : Prop := ∃ r, s.Wants i r ∧ s.held r = some j

/-- Some requests wait for each other in a circle. -/
def Cyclic : Prop := ∃ i, Relation.TransGen s.Waits i i

/-- The holder of `r` wants the other resource, whose holder wants `r`. -/
def Crossed (r : Resource) : Prop :=
  ∃ i j, s.held r = some i ∧ s.Wants i r.other ∧ s.held r.other = some j ∧ s.Wants j r

/-- Request `i` is about to take `r` and goes on to the other resource, while the holder
of the other resource is waiting to take `r`. -/
def Crosses (i : Nat) (r : Resource) : Prop :=
  s.held r = none ∧ ((s.todo[i]?).map (take 2) = some [.acquire r, .acquire r.other]) ∧
    ∃ j ∈ s.held r.other, s.Wants j r

/-- The step does not cross the two orders. -/
def Ordered : Event → Prop
  | .arrive _ => True
  | .advance i => ∀ r, ¬ s.Crosses i r

/-- Every request holds what its place in its program says. -/
def Inv : Prop :=
  (∀ i p, s.todo[i]? = some p → ∃ o, Rest p o ∧ ∀ r, r ∈ o ↔ s.held r = some i) ∧
    ∀ r i, s.held r = some i → i < s.todo.length

end

variable {s : LockState} {i j : Nat} {r : Resource} {p : List LockOp}

theorem Crossed.swap (h : s.Crossed r) : s.Crossed r.other := by
  obtain ⟨i, j, hi, hwi, hj, hwj⟩ := h
  refine ⟨j, i, hj, ?_, ?_, hwi⟩
  · rw [Resource.other_other]; exact hwj
  · rw [Resource.other_other]; exact hi

theorem wants_iff : s.Wants i r ↔ ∃ p, s.todo[i]? = some (.acquire r :: p) := by
  unfold Wants
  rcases s.todo[i]? with - | _ | ⟨a, p⟩ <;> simp

/-- No request waits for itself. -/
theorem Inv.not_held (h : s.Inv) (hw : s.Wants i r) : s.held r ≠ some i := by
  obtain ⟨p, hp⟩ := wants_iff.mp hw
  obtain ⟨o, hrest, ho⟩ := h.1 i _ hp
  rw [Ne, ← ho]
  exact hrest.acquire.1

/-- **Two resources.**  A circle of waiting requests is a crossed pair. -/
theorem Inv.cyclic_iff (h : s.Inv) : s.Cyclic ↔ ∃ r, s.Crossed r := by
  constructor
  · rintro ⟨i, hi⟩
    -- every request on the circle waits, so the one waited for waits as well
    have hnext : ∀ {a b}, Relation.TransGen s.Waits a b → ∃ c, s.Waits a c := by
      intro a b hab
      obtain ⟨c, hac, -⟩ := Relation.TransGen.head'_iff.mp hab
      exact ⟨c, hac⟩
    have hround : ∀ {a}, Relation.TransGen s.Waits a a →
        ∃ b, s.Waits a b ∧ Relation.TransGen s.Waits b b := by
      intro a ha
      obtain ⟨b, hab, hba⟩ := Relation.TransGen.head'_iff.mp ha
      exact ⟨b, hab, Relation.TransGen.tail' hba hab⟩
    obtain ⟨j, ⟨r, -, hj⟩, hjj⟩ := hround hi
    obtain ⟨k, ⟨x, hwx, hk⟩, hkk⟩ := hround hjj
    obtain ⟨l, y, hwy, hl⟩ := hnext hkk
    have hx : x = r.other := Resource.eq_other fun e => h.not_held hwx (e ▸ hj)
    subst hx
    have hy : y = r := by
      have := Resource.eq_other (r := r.other) (x := y) fun e => h.not_held hwy (e ▸ hk)
      rwa [Resource.other_other] at this
    subst hy
    exact ⟨y, j, k, hj, hwx, hk, hwy⟩
  · rintro ⟨r, i, j, hi, hwi, hj, hwj⟩
    exact ⟨i, .tail (.single ⟨_, hwi, hj⟩) ⟨_, hwj, hi⟩⟩

/-! ### One step -/

theorem inv_init : init.Inv := ⟨fun _ _ h => by simp [init] at h, fun _ _ h => by cases h⟩

theorem Inv.arrive (h : s.Inv) (q : LockRequest) : (s.step (.arrive q)).Inv := by
  refine ⟨fun i p hp => ?_, fun r i hi => ?_⟩
  · rcases Nat.lt_or_ge i s.todo.length with hlt | hge
    · exact h.1 i p (by rwa [step, getElem?_append_left hlt] at hp)
    · rw [step, getElem?_append_right hge] at hp
      have hq : p = q.program := mem_singleton.mp (mem_of_getElem? hp)
      subst hq
      refine ⟨[], q.rest_program, fun r => ?_⟩
      simp only [not_mem_nil, false_iff]
      exact fun hr => absurd (h.2 r i hr) (Nat.not_lt.mpr hge)
  · have := h.2 r i hi
    simp only [step, length_append]
    omega

/-- A request that moves on keeps the books if its own entry is right and the others'
holdings are as before. -/
theorem Inv.move (h : s.Inv) {held' : Resource → Option Nat} {o : List Resource}
    (hi : i < s.todo.length) (hp : Rest p o) (hown : ∀ x, x ∈ o ↔ held' x = some i)
    (hframe : ∀ j ≠ i, ∀ x, held' x = some j ↔ s.held x = some j) :
    (LockState.mk (s.todo.set i p) held').Inv := by
  refine ⟨fun j q hq => ?_, fun x j hx => ?_⟩
  · by_cases hj : j = i
    · subst hj
      rw [getElem?_set_self hi] at hq
      cases hq
      exact ⟨o, hp, hown⟩
    · rw [getElem?_set_ne (Ne.symm hj)] at hq
      obtain ⟨o', hrest, ho'⟩ := h.1 j q hq
      exact ⟨o', hrest, fun x => (ho' x).trans (hframe j hj x).symm⟩
  · rw [length_set]
    by_cases hj : j = i
    · exact hj ▸ hi
    · exact h.2 x j ((hframe j hj x).mp hx)

/-- What a step of a request can do. -/
theorem advance_cases (s : LockState) (i : Nat) :
    (∃ r p, s.todo[i]? = some (.acquire r :: p) ∧ s.held r = none ∧
      s.step (.advance i) = ⟨s.todo.set i p, update s.held r (some i)⟩) ∨
    (∃ r p, s.todo[i]? = some (.release r :: p) ∧
      s.step (.advance i) = ⟨s.todo.set i p, update s.held r none⟩) ∨
    ((∀ r, s.Wants i r → s.held r ≠ none) ∧ s.step (.advance i) = s) := by
  rcases hi : s.todo[i]? with - | _ | ⟨r | r, p⟩
  · exact .inr (.inr ⟨fun r hr => by simp [Wants, hi] at hr, by simp [step, hi]⟩)
  · exact .inr (.inr ⟨fun r hr => by simp [Wants, hi] at hr, by simp [step, hi]⟩)
  · by_cases hfree : s.held r = none
    · exact .inl ⟨r, p, rfl, hfree, by simp [step, hi, hfree]⟩
    · refine .inr (.inr ⟨fun x hx => ?_, by simp [step, hi, hfree]⟩)
      obtain rfl : r = x := by simpa [Wants, hi] using hx
      exact hfree
  · exact .inr (.inl ⟨r, p, rfl, by simp [step, hi]⟩)

theorem Inv.advance (h : s.Inv) (i : Nat) : (s.step (.advance i)).Inv := by
  rcases s.advance_cases i with ⟨r, p, hi, hfree, hs⟩ | ⟨r, p, hi, hs⟩ | ⟨-, hs⟩
  · obtain ⟨o, hrest, ho⟩ := h.1 i _ hi
    obtain ⟨-, o', hrest', ho'⟩ := hrest.acquire
    rw [hs]
    refine h.move (List.getElem?_eq_some_iff.mp hi).1 hrest' (fun x => ?_) fun j hj x => ?_
    · rw [ho', ho]
      by_cases hx : x = r <;> simp [hx]
    · by_cases hx : x = r
      · subst hx; simp [hfree, Ne.symm hj]
      · simp [hx]
  · obtain ⟨o, hrest, ho⟩ := h.1 i _ hi
    obtain ⟨hmem, o', hrest', ho'⟩ := hrest.release
    have hr : s.held r = some i := (ho r).mp hmem
    rw [hs]
    refine h.move (List.getElem?_eq_some_iff.mp hi).1 hrest' (fun x => ?_) fun j hj x => ?_
    · rw [ho', ho]
      by_cases hx : x = r <;> simp [hx]
    · by_cases hx : x = r
      · subst hx; simp [hr, Ne.symm hj]
      · simp [hx]
  · rw [hs]; exact h

theorem Inv.step (h : s.Inv) (e : Event) : (s.step e).Inv := by
  cases e with
  | arrive q => exact h.arrive q
  | advance i => exact h.advance i

variable {held : Resource → Option Nat}

theorem wants_append {l : List (List LockOp)}
    (hi : i < s.todo.length) : (LockState.mk (s.todo ++ l) held).Wants i r ↔ s.Wants i r := by
  unfold Wants
  rw [getElem?_append_left hi]

theorem wants_set_of_ne (hj : j ≠ i) :
    (LockState.mk (s.todo.set i p) held).Wants j r ↔ s.Wants j r := by
  unfold Wants
  rw [getElem?_set_ne (Ne.symm hj)]

/-- The holder of the other resource is another request, and it is where it was. -/
theorem Inv.crossed_acquire (h : s.Inv) (hi : s.todo[i]? = some (.acquire r :: p))
    (hfree : s.held r = none) : (s.step (.advance i)).Crossed r ↔ s.Crosses i r := by
  have hs : s.step (.advance i) = ⟨s.todo.set i p, update s.held r (some i)⟩ := by
    simp [LockState.step, hi, hfree]
  have hlt : i < s.todo.length := (List.getElem?_eq_some_iff.mp hi).1
  have hinv : (s.step (.advance i)).Inv := h.advance i
  rw [hs] at hinv ⊢
  have hother : update s.held r (some i) r.other = s.held r.other := update_of_ne r.other_ne _ _
  have hnext : (LockState.mk (s.todo.set i p) (update s.held r (some i))).Wants i
      r.other ↔ (s.todo[i]?).map (List.take 2) = some [.acquire r, .acquire r.other] := by
    rcases p with - | ⟨a, p⟩ <;> simp [Wants, hi, getElem?_set_self hlt]
  constructor
  · rintro ⟨i', j, hi', hwi, hj, hwj⟩
    obtain rfl : i = i' := by simpa using hi'
    have hne : j ≠ i := by
      rintro rfl
      exact hinv.not_held hwi hj
    refine ⟨hfree, hnext.mp hwi, j, ?_, (wants_set_of_ne hne).mp hwj⟩
    exact hother.symm.trans hj
  · rintro ⟨-, hwi, j, hj, hwj⟩
    have hwi' := hnext.mpr hwi
    have hj' : update s.held r (some i) r.other = some j := hother.trans hj
    have hne : j ≠ i := by
      rintro rfl
      exact hinv.not_held hwi' hj'
    exact ⟨i, j, update_self .., hwi', hj', (wants_set_of_ne hne).mpr hwj⟩

/-- **One step.**  Where no pair is crossed, a step crosses one only by `Crosses`. -/
theorem Inv.crossed_step (h : s.Inv) (hno : ∀ r, ¬ s.Crossed r) (e : Event) :
    (∃ r, (s.step e).Crossed r) ↔ ¬ s.Ordered e := by
  cases e with
  | arrive q =>
    refine iff_of_false ?_ (not_not.mpr trivial)
    rintro ⟨r, i, j, hi, hwi, hj, hwj⟩
    exact hno r ⟨i, j, hi, (wants_append (h.2 _ _ hi)).mp hwi, hj,
      (wants_append (h.2 _ _ hj)).mp hwj⟩
  | advance i =>
    simp only [Ordered, not_forall, not_not]
    rcases s.advance_cases i with ⟨r, p, hi, hfree, hs⟩ | ⟨r, p, hi, hs⟩ | ⟨hwait, hs⟩
    · have hr := h.crossed_acquire hi hfree
      constructor
      · rintro ⟨x, hx⟩
        -- a crossed pair is crossed seen from either resource
        by_cases hxr : x = r
        · exact ⟨r, hr.mp (hxr ▸ hx)⟩
        · refine ⟨r, hr.mp ?_⟩
          have hswap := hx.swap
          rwa [Resource.eq_other hxr, Resource.other_other] at hswap
      · rintro ⟨x, hx⟩
        obtain rfl : r = x := by
          have := hx.2.1
          simp only [hi, Option.map_some, Option.some.injEq, take_succ_cons] at this
          exact LockOp.acquire.inj (cons.inj this).1
        exact ⟨r, hr.mpr hx⟩
    · refine iff_of_false ?_ ?_
      · rintro ⟨x, a, b, ha, -, hb, -⟩
        rw [hs] at ha hb
        -- the resource just released has no holder
        by_cases hx : x = r
        · simp [hx] at ha
        · simp [← Resource.eq_other (Ne.symm hx)] at hb
      · rintro ⟨x, -, hx, -⟩
        simp [hi] at hx
    · rw [hs]
      refine iff_of_false (fun ⟨r, hr⟩ => hno r hr) ?_
      rintro ⟨r, hfree, htake, -⟩
      refine hwait r ?_ hfree
      rcases hi : s.todo[i]? with - | _ | ⟨a, p⟩
      · simp [hi] at htake
      · simp [hi] at htake
      · simp only [hi, Option.map_some, Option.some.injEq, take_succ_cons] at htake
        simp [Wants, hi, (cons.inj htake).1]

/-- **Deadlock.**  In a run of any requests no state has a circle of waiting requests if and
only if no step takes one resource on the way to the other while the holder of the other is
waiting for the first. -/
theorem never_cyclic_iff_ordered (l : List Event) :
    Runs.Along LockState.step (fun s e => ¬ (s.step e).Cyclic) init l ↔
      Runs.Along LockState.step Ordered init l := by
  refine Runs.along_iff_of_invariant (I := fun s => s.Inv ∧ ∀ r, ¬ s.Crossed r) ?_ ?_ ?_
    Runs.Along.trivial
  · rintro s e ⟨hinv, hno⟩ - hord
    refine ⟨hinv.step e, fun r hr => ?_⟩
    exact (hinv.crossed_step hno e).mp ⟨r, hr⟩ hord
  · rintro s e ⟨hinv, hno⟩ -
    rw [(hinv.step e).cyclic_iff, hinv.crossed_step hno, not_not]
  · exact ⟨inv_init, fun r ⟨i, _, hi, _⟩ => by cases hi⟩

/-- **A circle of any length** has two requests that wait for each other. -/
theorem cyclic_run_iff (l : List Event) : let s := Runs.run step init l
    s.Cyclic ↔ ∃ r, s.Crossed r :=
  (Runs.invariant_run (fun _ e h => h.step e) inv_init l).cyclic_iff

/-- A `Save` in its transaction and a reservation under the claims lock. -/
theorem save_reserve_cyclic :
    (Runs.run LockState.step init
      [.arrive (.save true), .arrive (.reserve false), .advance 0, .advance 1]).Cyclic :=
  ⟨0, .tail (b := 1) (.single ⟨.claims, by decide, by decide⟩) ⟨.writer, by decide, by decide⟩⟩

end LockState

end Xolu.Storage
