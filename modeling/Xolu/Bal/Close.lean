/-
# Concurrent period closes (pkg/bal/seal.go)

`SealPeriod` advances the tenant's in-memory frontier, reads it back and writes it to the
seal table.  The sealer's lock covers each of the first two steps and the database the third,
so several calls interleave at these three points; the upsert of the third step stores
whatever its call has read, without comparing it with what is stored.

`Closing` is the sealer, the stored frontier and the calls, each at one of its steps.  The
in-memory frontier only moves forward.  The stored one follows it as long as the calls write
in the order of the frontiers they have read (`InOrder`), and then a fresh `loadSealer` seals
what the sealer in memory seals: months end at whole seconds, so that the seconds the table
keeps are enough.  The one exception is the first second of year 1, since a frontier stored as
the zero time is read back as none.
-/
import Xolu.Lib.Run
import Xolu.Chronicle.Seal

namespace Xolu.Bal

open List Instant Chronicle Runs Sealer Option

/-! ### The steps of a close -/

/-- `LoadSealer`: month windows and the stored frontier, if there is one. -/
def loadSealer (persisted : Option Int) : Sealer :=
  match persisted with
  | none => newSealer monthWindows
  | some sec => (newSealer monthWindows).advanceTo (ofUnix sec)

/-- A `SealPeriod` call: begun, past `AdvanceTo`, with the frontier it has read, or with that
frontier stored. -/
inductive Call where
  | begun (at' : Int)
  | advanced
  | read (frontier : Int)
  | stored (frontier : Int)
deriving DecidableEq, Repr

/-- The frontier a call has read and is about to store. -/
def Call.read? : Call → Option Int
  | .read f => some f
  | _ => none

/-- The frontier a call has stored. -/
def Call.stored? : Call → Option Int
  | .stored f => some f
  | _ => none

/-- The sealer of a tenant, the row of its seal table, and its calls. -/
structure Closing where
  sealer : Sealer
  persisted : Option Int
  calls : List Call

/-- A new call, and the next step of the `i`-th. -/
inductive CloseCmd where
  | call (at' : Int)
  | next (i : Nat)

namespace Closing

/-- The process starts from what is stored. -/
def init (persisted : Option Int) : Closing := ⟨loadSealer persisted, persisted, []⟩

variable (s : Closing)

/-- One step; the three steps of a call are `AdvanceTo`, `Frontier` and the upsert. -/
def step : CloseCmd → Closing
  | .call at' => { s with calls := s.calls ++ [.begun at'] }
  | .next i =>
    match s.calls[i]? with
    | some (.begun at') =>
      { s with sealer := s.sealer.advanceTo at', calls := s.calls.set i .advanced }
    | some .advanced => { s with calls := s.calls.set i (.read s.sealer.frontier) }
    | some (.read f) =>
      { s with persisted := some (unix f), calls := s.calls.set i (.stored f) }
    | _ => s

/-- All calls have returned. -/
def Finished : Prop := ∀ c ∈ s.calls, c.stored?.isSome = true
deriving Decidable

/-- The step does not lower the stored frontier. -/
def Keeps (c : CloseCmd) : Prop := ∀ p ∈ s.persisted, ∃ q ∈ (s.step c).persisted, p ≤ q
deriving Decidable

/-- A call that is about to store its frontier has read it in no earlier second than the
calls that have stored theirs. -/
def InOrder : CloseCmd → Prop
  | .call _ => True
  | .next i => ∀ f ∈ s.calls[i]?.bind Call.read?, ∀ g ∈ s.calls.filterMap Call.stored?,
      unix g ≤ unix f

/-- Not inside the first second of year 1. -/
def Whole (f : Int) : Prop := f ≤ zeroTime ∨ zeroTime + 1000000000 ≤ f
deriving Decidable

instance (s : Closing) : DecidablePred s.InOrder
  | .call _ => .isTrue trivial
  | .next _ => inferInstanceAs (Decidable (∀ _ ∈ _, ∀ _ ∈ _, _))

end Closing

/-- A call names no instant inside the first second of year 1. -/
def CloseCmd.Clear : CloseCmd → Prop
  | .call at' => Closing.Whole at'
  | .next _ => True

instance : DecidablePred CloseCmd.Clear
  | .call _ => inferInstanceAs (Decidable (Closing.Whole _))
  | .next _ => .isTrue trivial

/-- What a step can do. -/
inductive Closing.Moves (s : Closing) : CloseCmd → Closing → Prop
  | called (at' : Int) : Moves s (.call at') { s with calls := s.calls ++ [.begun at'] }
  | advanced {i : Nat} {at' : Int} (h : s.calls[i]? = some (.begun at')) : Moves s (.next i)
      { s with sealer := s.sealer.advanceTo at', calls := s.calls.set i .advanced }
  | read {i : Nat} (h : s.calls[i]? = some .advanced) : Moves s (.next i)
      { s with calls := s.calls.set i (.read s.sealer.frontier) }
  | stored {i : Nat} {f : Int} (h : s.calls[i]? = some (.read f)) : Moves s (.next i)
      { s with persisted := some (unix f), calls := s.calls.set i (.stored f) }
  | idle {i : Nat} (h : ∀ f, s.calls[i]? ≠ some (.read f)) : Moves s (.next i) s

theorem Closing.step_cases (s : Closing) (c : CloseCmd) : s.Moves c (s.step c) := by
  cases c with
  | call at' => exact .called at'
  | next i =>
    rcases h : s.calls[i]? with _ | c
    · have hidle : s.step (.next i) = s := by simp only [step, h]
      rw [hidle]
      exact .idle fun f hf => by rw [h] at hf; cases hf
    · cases c with
      | begun at' =>
        simp only [step, h]
        exact .advanced h
      | advanced =>
        simp only [step, h]
        exact .read h
      | read f =>
        simp only [step, h]
        exact .stored h
      | stored f =>
        have hidle : s.step (.next i) = s := by simp only [step, h]
        rw [hidle]
        exact .idle fun f hf => by rw [h] at hf; cases hf

/-! ### The stored frontier follows the one in memory -/

/-- Replacing one element of a list keeps the others. -/
theorem mem_set_of_ne {α : Type*} {l : List α} {i : Nat} {old x new : α} (hi : l[i]? = some old)
    (hx : x ∈ l) (hne : x ≠ old) : x ∈ l.set i new := by
  obtain ⟨j, hj⟩ := mem_iff_getElem?.mp hx
  have hij : i ≠ j := by
    rintro rfl
    exact hne (some.inj (hj.symm.trans hi))
  refine mem_iff_getElem?.mpr ⟨j, ?_⟩
  rw [getElem?_set_ne hij, hj]

theorem mem_set_self {α : Type*} {l : List α} {i : Nat} {old new : α} (hi : l[i]? = some old) :
    new ∈ l.set i new :=
  mem_set (List.getElem?_eq_some_iff.mp hi).1 new

namespace Closing

/-- The call has read the frontier. -/
def Seen (s : Closing) (f : Int) : Prop := Call.read f ∈ s.calls ∨ Call.stored f ∈ s.calls

/-- What every interleaving keeps, from a start with `p` stored: the calls have read
frontiers between the first and the present one, the present one is the first or has been set
by a call that will read it or has, and what is stored is `p` or what some call has read. -/
structure Inv (p : Option Int) (s : Closing) : Prop where
  window : s.sealer.window = monthWindows
  first : (loadSealer p).frontier ≤ s.sealer.frontier
  seen : ∀ f, s.Seen f → (loadSealer p).frontier ≤ f ∧ f ≤ s.sealer.frontier
  source : s.sealer.frontier = (loadSealer p).frontier ∨ Call.advanced ∈ s.calls ∨
    s.Seen s.sealer.frontier
  origin : s.persisted = p ∨ ∃ g, Call.stored g ∈ s.calls ∧ s.persisted = some (unix g)

theorem inv_init (p : Option Int) : Inv p (init p) where
  window := by cases p <;> simp [init, loadSealer, newSealer]
  first := le_rfl
  seen := by simp [Seen, init]
  source := .inl rfl
  origin := .inl rfl

theorem Seen.of_set {s s' : Closing} {i : Nat} {c : Call} {f : Int}
    (hcalls : s'.calls = s.calls.set i c) (h : s'.Seen f) :
    s.Seen f ∨ c = .read f ∨ c = .stored f := by
  unfold Seen at h
  rw [hcalls] at h
  rcases h with h | h
  · rcases mem_or_eq_of_mem_set h with h | h
    · exact .inl (.inl h)
    · exact .inr (.inl h.symm)
  · rcases mem_or_eq_of_mem_set h with h | h
    · exact .inl (.inr h)
    · exact .inr (.inr h.symm)

variable {s : Closing} {p : Option Int}

theorem inv_step (h : Inv p s) (c : CloseCmd) : Inv p (s.step c) := by
  have hs := s.step_cases c
  generalize s.step c = s' at hs
  cases hs with
  | called at' =>
    refine ⟨h.window, h.first, ?_, ?_, ?_⟩
    · intro f hf
      apply h.seen
      simpa [Seen] using hf
    · simpa [Seen] using h.source
    · simpa using h.origin
  | @advanced i at' hi =>
    have hle := s.sealer.le_advanceTo at'
    refine ⟨?_, h.first.trans hle, ?_, .inr (.inl (mem_set_self hi)), ?_⟩
    · rw [advanceTo_window, h.window]
    · intro f hf
      rcases hf.of_set rfl with hf | hf | hf
      · exact ⟨(h.seen f hf).1, (h.seen f hf).2.trans hle⟩
      · cases hf
      · cases hf
    · rcases h.origin with ho | ⟨g, hg, ho⟩
      · exact .inl ho
      · exact .inr ⟨g, mem_set_of_ne hi hg (by simp), ho⟩
  | @read i hi =>
    refine ⟨h.window, h.first, ?_, .inr (.inr (.inl (mem_set_self hi))), ?_⟩
    · intro f hf
      rcases hf.of_set rfl with hf | hf | hf
      · exact h.seen f hf
      · obtain rfl := Call.read.inj hf
        exact ⟨h.first, le_rfl⟩
      · cases hf
    · rcases h.origin with ho | ⟨g, hg, ho⟩
      · exact .inl ho
      · exact .inr ⟨g, mem_set_of_ne hi hg (by simp), ho⟩
  | @stored i f hi =>
    have hseen : s.Seen f := .inl (mem_of_getElem? hi)
    refine ⟨h.window, h.first, ?_, ?_, .inr ⟨f, mem_set_self hi, rfl⟩⟩
    · intro g hg
      rcases hg.of_set rfl with hg | hg | hg
      · exact h.seen g hg
      · cases hg
      · obtain rfl := Call.stored.inj hg
        exact h.seen f hseen
    · -- the call that was to store the present frontier has stored it
      rcases h.source with hf | hadv | hread | hstored
      · exact .inl hf
      · exact .inr (.inl (mem_set_of_ne hi hadv (by simp)))
      · by_cases hff : f = s.sealer.frontier
        · subst hff
          exact .inr (.inr (.inr (mem_set_self hi)))
        · exact .inr (.inr (.inl (mem_set_of_ne hi hread fun he => hff (Call.read.inj he).symm)))
      · exact .inr (.inr (.inr (mem_set_of_ne hi hstored (by simp))))
  | idle => exact h

theorem inOrder_next_iff {i : Nat} : s.InOrder (.next i) ↔ ∀ f, s.calls[i]? = some (.read f) →
      ∀ g, Call.stored g ∈ s.calls → unix g ≤ unix f := by
  have hread : ∀ f, f ∈ s.calls[i]?.bind Call.read? ↔ s.calls[i]? = some (.read f) := by
    intro f
    rcases s.calls[i]? with _ | c
    · simp
    · cases c <;> simp [Call.read?]
  have hstored : ∀ g, g ∈ s.calls.filterMap Call.stored? ↔ Call.stored g ∈ s.calls := by
    intro g
    rw [mem_filterMap]
    constructor
    · rintro ⟨c, hc, hg⟩
      cases c <;> simp [Call.stored?] at hg
      exact hg ▸ hc
    · exact fun h => ⟨_, h, rfl⟩
  show (∀ f ∈ _, ∀ g ∈ _, _) ↔ _
  simp only [hread, hstored]

theorem Finished.stored (h : s.Finished) {c : Call} (hc : c ∈ s.calls) : ∃ f, c = .stored f := by
  have := h c hc
  cases c <;> simp [Call.stored?] at this ⊢

/-- What is stored is not past what it is loaded as. -/
theorem le_unix_loadSealer {sec : Int} (h : sec ∈ p) : sec ≤ unix (loadSealer p).frontier := by
  obtain rfl : p = some sec := h
  unfold loadSealer
  rw [← le_ofUnix_iff]
  dsimp only
  unfold advanceTo
  split
  · exact le_rfl
  next hnot => exact not_lt.mp hnot

/-- Besides, what is stored is as late as what any call has stored. -/
structure Tracked (p : Option Int) (s : Closing) : Prop extends Inv p s where
  latest : ∀ g, Call.stored g ∈ s.calls → ∃ q ∈ s.persisted, unix g ≤ q

/-- What is stored is not ahead of a frontier that was read. -/
theorem Inv.persisted_le (h : Inv p s) {f q : Int}
    (hf : s.Seen f) (hstored : ∀ g, Call.stored g ∈ s.calls → unix g ≤ unix f)
    (hq : q ∈ s.persisted) : q ≤ unix f := by
  rcases h.origin with ho | ⟨g, hg, ho⟩
  · rw [ho] at hq
    exact (le_unix_loadSealer hq).trans (unix_mono (h.seen f hf).1)
  · rw [ho, mem_some_iff] at hq
    rw [← hq]
    exact hstored g hg

theorem tracked_step (h : Tracked p s) {c : CloseCmd}
    (hc : s.InOrder c) : Tracked p (s.step c) := by
  refine ⟨inv_step h.toInv c, ?_⟩
  have hs := s.step_cases c
  generalize s.step c = s' at hs
  intro g hg
  -- only a store touches what is stored
  have old : ∀ {i : Nat} {x : Call}, Call.stored g ∈ s.calls.set i x → (∀ f, x ≠ .stored f) →
      ∃ q ∈ s.persisted, unix g ≤ q := by
    intro i x hx hne
    rcases mem_or_eq_of_mem_set hx with hx | hx
    · exact h.latest g hx
    · exact absurd hx.symm (hne g)
  cases hs with
  | called at' => exact h.latest g (by simpa using hg)
  | advanced | read => exact old hg (by simp)
  | @stored i f hi =>
    refine ⟨unix f, rfl, ?_⟩
    rcases mem_or_eq_of_mem_set hg with hg | hg
    · exact inOrder_next_iff.mp hc f hi g hg
    · rw [Call.stored.inj hg]
  | idle => exact h.latest g hg

/-- **A step lowers the stored frontier exactly when it stores out of order.** -/
theorem keeps_iff (h : Tracked p s) (c : CloseCmd) : s.Keeps c ↔ s.InOrder c := by
  unfold Keeps
  have hs := s.step_cases c
  generalize s.step c = s' at hs
  -- the other steps leave what is stored and are in order
  have quiet : ∀ {i : Nat}, (∀ f, s.calls[i]? ≠ some (.read f)) →
      ((∀ q ∈ s.persisted, ∃ q' ∈ s.persisted, q ≤ q') ↔ s.InOrder (.next i)) := fun hi =>
    iff_of_true (fun q hq => ⟨q, hq, le_rfl⟩) (inOrder_next_iff.mpr fun f hf => absurd hf (hi f))
  cases hs with
  | called at' => exact iff_of_true (fun q hq => ⟨q, hq, le_rfl⟩) trivial
  | advanced hi | read hi => exact quiet (by simp [hi])
  | @stored i f hi =>
    rw [inOrder_next_iff]
    constructor
    · intro hk f' hf' g hg
      obtain rfl : f = f' := Call.read.inj (some.inj (hi.symm.trans hf'))
      obtain ⟨q, hq, hle⟩ := h.latest g hg
      obtain ⟨q', hq', hle'⟩ := hk q hq
      rw [← mem_some_iff.mp hq'] at hle'
      exact hle.trans hle'
    · intro hord q hq
      exact ⟨unix f, rfl, h.persisted_le (.inl (mem_of_getElem? hi)) (hord f hi) hq⟩
  | idle hi => exact quiet hi

/-! ### What a restart seals -/

/-- Months end at whole seconds. -/
theorem monthWindows_end (t : Int) : ∃ sec, (monthWindows t).2 = ofUnix sec := by
  refine ⟨(Gregorian.monthStart (month t + 1) - 719528) * 86400, ?_⟩
  show addMonths (ofMonth (month t)) 1 = _
  rw [addMonths, month_ofMonth, sub_self, add_zero]
  unfold ofMonth ofUnix
  omega

/-- The seconds of a frontier seal what the frontier seals. -/
theorem loadSealer_sealed {z : Sealer} (hw : z.window = monthWindows) (h0 : zeroTime ≤ z.frontier)
    (hf : Whole z.frontier) (t : Int) :
    (loadSealer (some (unix z.frontier))).sealed t = z.sealed t := by
  obtain ⟨sec, hsec⟩ := monthWindows_end t
  have hzero : ofUnix (unix zeroTime) = zeroTime := by decide
  unfold loadSealer sealed
  rw [advanceTo_window, hw]
  show (decide (_ ≠ _) && decide ((monthWindows t).2 ≤ _)) = _
  rw [hsec]
  rcases hf with hf | hf
  · -- nothing is sealed yet
    rw [le_antisymm hf h0]
    simp [advanceTo, newSealer, hzero]
  · have hlt : zeroTime < ofUnix (unix z.frontier) := by
      unfold ofUnix unix zeroTime at *
      omega
    have hfront : ((newSealer monthWindows).advanceTo (ofUnix (unix z.frontier))).frontier
        = ofUnix (unix z.frontier) := by
      show (if zeroTime < _ then _ else _ : Sealer).frontier = _
      rw [if_pos hlt]
    rw [hfront, decide_eq_true hlt.ne', decide_eq_true (hlt.trans_le (ofUnix_unix_le _)).ne',
      Bool.true_and, Bool.true_and, decide_eq_decide, le_ofUnix_iff, le_ofUnix_iff, unix_ofUnix]

/-- Frontiers outside the first second of year 1, in memory and on their way there. -/
structure AllWhole (s : Closing) : Prop where
  frontier : Whole s.sealer.frontier
  begun : ∀ at', Call.begun at' ∈ s.calls → Whole at'

theorem allWhole_init (p : Option Int) : AllWhole (init p) where
  frontier := by
    unfold init loadSealer Whole
    cases p with
    | none => exact .inl le_rfl
    | some sec =>
      dsimp only
      unfold advanceTo
      split
      next h =>
        right
        have hlt : zeroTime < ofUnix sec := h
        show zeroTime + 1000000000 ≤ ofUnix sec
        unfold zeroTime ofUnix at *
        omega
      · exact .inl le_rfl
  begun := by simp [init]

theorem allWhole_step (h : AllWhole s) {c : CloseCmd} (hc : c.Clear) : AllWhole (s.step c) := by
  have hs := s.step_cases c
  generalize s.step c = s' at hs
  have old : ∀ {i : Nat} {x : Call}, (∀ f, x ≠ .begun f) → ∀ at', Call.begun at' ∈ s.calls.set i x →
      Whole at' := by
    intro i x hx at' hb
    rcases mem_or_eq_of_mem_set hb with hb | hb
    · exact h.begun at' hb
    · exact absurd hb.symm (hx at')
  cases hs with
  | called at' =>
    refine ⟨h.frontier, ?_⟩
    intro b hb
    rcases mem_append.mp hb with hb | hb
    · exact h.begun b hb
    · obtain rfl : b = at' := by simpa using hb
      exact hc
  | @advanced i at' hi =>
    refine ⟨?_, old (by simp)⟩
    unfold advanceTo
    split
    · exact h.begun at' (mem_of_getElem? hi)
    · exact h.frontier
  | read | stored => exact ⟨h.frontier, old (by simp)⟩
  | idle => exact h

/-- When every call has returned, a restart finds the frontier of the sealer in memory. -/
theorem Tracked.reload (h : Tracked p s) (hdone : s.Finished) :
    loadSealer s.persisted = s.sealer ∨ s.persisted = some (unix s.sealer.frontier) := by
  have hstored : ∀ f, s.Seen f → Call.stored f ∈ s.calls := by
    rintro f (hf | hf)
    · obtain ⟨g, hg⟩ := hdone.stored hf
      cases hg
    · exact hf
  have hmono : ∀ g, Call.stored g ∈ s.calls → unix g ≤ unix s.sealer.frontier :=
    fun g hg => unix_mono (h.seen g (.inr hg)).2
  rcases h.source with hf | hadv | hseen
  · rcases h.origin with ho | ⟨g, hg, ho⟩
    · left
      rw [ho]
      have hw : (loadSealer p).window = s.sealer.window := by
        rw [h.window, (inv_init p).window.symm]
        rfl
      cases hz : s.sealer
      cases hl : loadSealer p
      rw [hz, hl] at hf hw
      exact congrArg₂ Sealer.mk hf.symm hw
    · right
      have hg' := h.seen g (.inr hg)
      rw [ho, hf, le_antisymm (hf ▸ hg'.2) hg'.1]
  · obtain ⟨g, hg⟩ := hdone.stored hadv
    cases hg
  · right
    have hst := hstored _ hseen
    obtain ⟨q, hq, hle⟩ := h.latest _ hst
    have hq' := h.persisted_le hseen hmono hq
    rw [mem_def.mp hq, le_antisymm hq' hle]

/-- **What every interleaving keeps.** -/
theorem inv_run (p : Option Int) (cmds : List CloseCmd) : Inv p (run step (init p) cmds) :=
  invariant_run (I := Inv p) (fun _ c h => inv_step h c) (inv_init p) cmds

end Closing

/-- **Period close.**  In every interleaving the stored frontier is never lowered exactly when
the calls store in the order of the frontiers they read.  If they do, and no call names an
instant inside the first second of year 1, then once all have returned a fresh sealer seals
exactly what the one in memory seals. -/
theorem period_close (p : Option Int) (cmds : List CloseCmd) :
    (Along Closing.step Closing.Keeps (Closing.init p) cmds ↔
      Along Closing.step Closing.InOrder (Closing.init p) cmds) ∧
    (Along Closing.step Closing.InOrder (Closing.init p) cmds → (∀ c ∈ cmds, c.Clear) →
      (run Closing.step (Closing.init p) cmds).Finished →
        ∀ t, (loadSealer (run Closing.step (Closing.init p) cmds).persisted).sealed t
          = (run Closing.step (Closing.init p) cmds).sealer.sealed t) := by
  have h0 : Closing.Tracked p (Closing.init p) := ⟨Closing.inv_init p, by simp [Closing.init]⟩
  refine ⟨?_, ?_⟩
  · exact along_iff_of_invariant (I := Closing.Tracked p) (N := fun _ _ => True)
      (fun s c hs _ hc => Closing.tracked_step hs hc) (fun s c hs _ => Closing.keeps_iff hs c) h0
      Along.trivial
  · intro hord hclear hdone t
    have hI := invariant_of_along (I := fun s => Closing.Tracked p s ∧ Closing.AllWhole s)
      (fun s c hs hc => ⟨Closing.tracked_step hs.1 hc.1, Closing.allWhole_step hs.2 hc.2⟩)
      ⟨h0, Closing.allWhole_init p⟩ (hord.and_forall hclear)
    obtain ⟨htracked, hwhole⟩ := hI
    rcases htracked.reload hdone with h | h
    · rw [h]
    · rw [h]
      have hfirst : zeroTime ≤ (loadSealer p).frontier := by
        cases p with
        | none => exact le_rfl
        | some sec => exact (newSealer monthWindows).le_advanceTo _
      exact Closing.loadSealer_sealed htracked.window (hfirst.trans htracked.first)
        hwhole.frontier t

/-- Closes of January and February 2026, the second begun before the first has read the
frontier. -/
def overlappingCloses (schedule : List Nat) : List CloseCmd :=
  [.call 1769904000000000000, .call 1772323200000000000] ++ schedule.map .next

/-- Both calls read and store the end of February. -/
theorem period_close_overlapping : let cmds := overlappingCloses [0, 1, 0, 1, 0, 1]
    let s := run Closing.step (Closing.init none) cmds
    Along Closing.step Closing.Keeps (Closing.init none) cmds ∧
      ∀ t, (loadSealer s.persisted).sealed t = s.sealer.sealed t :=
  ⟨(period_close none _).1.mpr (by decide),
    (period_close none _).2 (by decide) (by decide) (by decide)⟩

/-- The first call reads before the second advances and stores after the second has stored:
the stored frontier falls back to the end of January, and after a restart February is open. -/
theorem late_store_unseals : let cmds := overlappingCloses [0, 0, 1, 1, 1, 0]
    let s := run Closing.step (Closing.init none) cmds
    ¬ Along Closing.step Closing.Keeps (Closing.init none) cmds ∧ s.Finished ∧
      s.sealer.sealed 1770681600000000000 = true ∧
      (loadSealer s.persisted).sealed 1770681600000000000 = false := by
  decide

end Xolu.Bal
