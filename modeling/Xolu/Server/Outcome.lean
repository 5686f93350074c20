/-
# The outcome record of an instance (pkg/server/v2_dxp_dispatch.go)

What the `dxp_txn` row of an instance is worth, over every schedule of its dispatcher, the
goroutines of its participants and the sweeper, with every failure and a crash anywhere.

`outcome_truthful`: a committed row counts every participant and each of them is durable, of
a released one none is, an ended row keeps its outcome, and an expired row the dispatcher has
written counts what is durable.  `collapsed_committed_iff` is about the gap between the shared
commit and the marking: an instance whose effects are durable is recorded as committed iff no
sweep after its deadline found its row active.
-/
import Xolu.Lib.Run
import Xolu.Server.Phases

namespace Xolu.Server

open List Runs

namespace Dispatcher

variable {d : Dispatcher}

/-! ### The legs -/

variable {legs : List Leg}

theorem durable_eq_zero_iff : durable legs = 0 ↔ ∀ l ∈ legs, l ≠ .committed := by
  rw [durable, count_eq_zero]
  exact ⟨fun h l hl e => h (e ▸ hl), fun h hl => h _ hl rfl⟩

theorem executeResult_ne_committed (p : ParticipantSpec) (err : Option String) :
    d.executeResult p err ≠ .committed := by
  unfold executeResult
  split
  · exact Leg.noConfusion
  · cases err <;> exact Leg.noConfusion

theorem length_executeLeg (legs : List Leg) (i : Nat) (err : Option String) :
    (d.executeLeg legs i err).length = legs.length := by
  unfold executeLeg
  split
  · exact length_set
  · rfl

theorem length_commitLeg (legs : List Leg) (i : Nat) (err : Option String) :
    (d.commitLeg legs i err).length = legs.length := by
  unfold commitLeg
  split
  · exact length_set
  · rfl

/-- Executing makes nothing durable. -/
theorem durable_executeLeg (h : durable legs = 0) (i : Nat)
    (err : Option String) : durable (d.executeLeg legs i err) = 0 := by
  unfold executeLeg
  split
  · rw [durable_eq_zero_iff] at h ⊢
    intro l hl
    rcases mem_or_eq_of_mem_set hl with hl | rfl
    · exact h l hl
    · exact executeResult_ne_committed _ err
  · exact h

/-- On the collapsed path no goroutine commits. -/
theorem commitLeg_of_collapsed (hd : d.collapsed = true) (legs : List Leg) (i : Nat)
    (err : Option String) : d.commitLeg legs i err = legs := by
  simp only [commitLeg, hd]

/-- Behind the barrier of the phased path, without a failure, everything is committed. -/
theorem committed_of_firstFailure (hlen : legs.length = d.participants.length)
    (hjoin : legs.any (·.inFlight false) = false) (hnone : d.firstFailure legs = none) :
    ∀ l ∈ legs, l = .committed := by
  intro l hl
  have hflight : l.inFlight false = false := by
    simpa using any_eq_false.mp hjoin l hl
  have hzip : l ∈ (d.participants.zip legs).map Prod.snd := by
    rwa [map_snd_zip hlen.le]
  obtain ⟨⟨p, l'⟩, hmem, rfl⟩ := mem_map.mp hzip
  have hfail := findSome?_eq_none_iff.mp hnone _ hmem
  cases l' with
  | running | executed => cases hflight
  | committed => rfl
  | failed err => cases hfail

/-! ### The invariant -/

variable (d)

/-- What the row tells is so. -/
structure Truthful (s : Dispatch) : Prop where
  legs : s.legs.length = d.participants.length
  committed : s.row.status = .ended .committed →
    s.row.committedThrough = d.participants.length ∧ ∀ l ∈ s.legs, l = .committed
  released : s.row.status = .ended .released → durable s.legs = 0

/-- What is durable when the dispatcher is about to record an outcome. -/
def Backs (legs : List Leg) (through : Nat) : Terminal → Prop
  | .committed => through = d.participants.length ∧ ∀ l ∈ legs, l = .committed
  | .released => durable legs = 0
  | .expired => durable legs = through ∧ (d.collapsed = true → through = 0)

/-- Nobody but the sweeper has ended the row. -/
def Unmarked (row : TxnRow) : Prop := row.status = .active ∨ row.status = .ended .expired

/-- What is durable where the dispatcher is. -/
def At (s : Dispatch) : Phase → Prop
  | .reserving .. | .validating .. => Unmarked s.row ∧ durable s.legs = 0
  | .executing => Unmarked s.row ∧ (d.collapsed = true → durable s.legs = 0)
  | .marking t through _ => Unmarked s.row ∧ d.Backs s.legs through t
  | .postCommitting .. | .returned _ | .crashed => True

/-- The invariant of the dispatch. -/
structure Inv (s : Dispatch) : Prop extends d.Truthful s where
  at_ : d.At s s.phase

variable {d} {s : Dispatch}

theorem at_attending {ph : Phase} (hph : Attending ph) (hu : Unmarked s.row)
    (h0 : durable s.legs = 0) : d.At s ph := by
  cases hph with
  | executing => exact ⟨hu, fun _ => h0⟩
  | reserving | validating | refused => exact ⟨hu, h0⟩

theorem at_postCommitFrom (through : Nat) (l : List ParticipantSpec) :
    d.At s (postCommitFrom through l) := by
  cases l <;> trivial

theorem inv_start (deadlineNs createdAt : Int) : d.Inv (d.start deadlineNs createdAt) where
  legs := length_map _
  committed := TxnStatus.noConfusion
  released := TxnStatus.noConfusion
  at_ := by
    refine at_attending (attending_reserveFrom _) (.inl rfl) (durable_eq_zero_iff.mpr ?_)
    intro l hl
    obtain ⟨p, -, rfl⟩ := mem_map.mp hl
    exact Leg.noConfusion

/-- Where the dispatcher is does not matter to the row. -/
theorem Truthful.goto (h : d.Truthful s) {ph : Phase} (hat : d.At s ph) :
    d.Inv { s with phase := ph } := ⟨⟨h.legs, h.committed, h.released⟩, by cases ph <;> exact hat⟩

/-- A row that nobody but the sweeper has ended is truthful. -/
theorem Truthful.of_unmarked (hlen : s.legs.length = d.participants.length)
    (hu : Unmarked s.row) : d.Truthful s where
  legs := hlen
  committed := fun h => by rcases hu with hu | hu <;> cases hu.symm.trans h
  released := fun h => by rcases hu with hu | hu <;> cases hu.symm.trans h

/-- The sweeper ends active rows as expired and changes no other. -/
theorem Inv.withRow (h : d.Inv s) {row : TxnRow}
    (hrow : s.row.SameOutcome row ∨ row.status = .ended .expired) :
    d.Inv { s with row := row } := by
  have hu : Unmarked s.row → Unmarked row := by
    rcases hrow with hrow | hrow
    · unfold Unmarked
      rw [hrow.1]
      exact id
    · exact fun _ => .inr hrow
  refine ⟨⟨h.legs, fun hc => ?_, fun hr => ?_⟩, ?_⟩
  · rcases hrow with hrow | hrow
    · exact ⟨hrow.2.trans (h.committed (hrow.1.symm.trans hc)).1,
        (h.committed (hrow.1.symm.trans hc)).2⟩
    · cases hrow.symm.trans hc
  · rcases hrow with hrow | hrow
    · exact h.released (hrow.1.symm.trans hr)
    · cases hrow.symm.trans hr
  · have hat := h.at_
    cases hph : s.phase <;> rw [hph] at hat
    case reserving | validating | executing | marking => exact ⟨hu hat.1, hat.2⟩
    all_goals trivial

theorem Inv.executing (h : d.Inv s) (hph : s.phase = .executing) :
    Unmarked s.row ∧ (d.collapsed = true → durable s.legs = 0) := by
  have hat := h.at_
  rw [hph] at hat
  exact hat

/-- Goroutines at work, none of which commits on the collapsed path. -/
theorem Inv.withLegs (h : d.Inv s) (hph : s.phase = .executing)
    (hlen : legs.length = s.legs.length) (h0 : d.collapsed = true → durable legs = 0) :
    d.Inv { s with legs := legs } := by
  obtain ⟨hu, -⟩ := h.executing hph
  refine ⟨.of_unmarked (hlen.trans h.legs) hu, ?_⟩
  rw [hph]
  exact ⟨hu, h0⟩

/-- The barrier of the collapsed path: the shared transaction makes everything durable or
nothing. -/
theorem Inv.joinCollapsed (h : d.Inv s) (hd : d.collapsed = true) (hph : s.phase = .executing)
    (commitErr : Option String) : d.Inv (d.joinCollapsed s commitErr) := by
  obtain ⟨hu, h0⟩ := h.executing hph
  rcases joinCollapsed_cases s commitErr with ⟨reason, hj⟩ | hj | hj
  · rw [hj]
    exact h.goto ⟨hu, h0 hd, fun _ => rfl⟩
  · rw [hj]
    exact h.goto trivial
  · rw [hj]
    have hlen : (s.legs.map fun _ => Leg.committed).length = d.participants.length :=
      length_map _ |>.trans h.legs
    refine ⟨.of_unmarked hlen hu, hu, rfl, ?_⟩
    intro l hl
    obtain ⟨-, -, rfl⟩ := mem_map.mp hl
    rfl

/-- The barrier of the phased path: what is committed is counted. -/
theorem Inv.joinPhased (h : d.Inv s) (hd : d.collapsed = false) (hph : s.phase = .executing)
    (hjoin : s.legs.any (·.inFlight false) = false) : d.Inv (d.joinPhased s) := by
  obtain ⟨hu, -⟩ := h.executing hph
  rcases joinPhased_cases s with ⟨reason, hj⟩ | ⟨hnone, hj⟩
  · rw [hj]
    exact h.goto ⟨hu, rfl, fun hc => absurd (hd.symm.trans hc) (by decide)⟩
  · rw [hj]
    have hall := committed_of_firstFailure h.legs hjoin hnone
    refine h.goto ⟨hu, ?_, hall⟩
    rw [← h.legs]
    exact count_eq_length.mpr fun l hl => (hall l hl).symm

/-- What the marking writes is what the legs back. -/
theorem Inv.mark (h : d.Inv s) {t : Terminal} {through : Nat} {reason : String}
    (hph : s.phase = .marking t through reason) : d.Inv (d.mark s t through reason) := by
  have hat := h.at_
  rw [hph] at hat
  obtain ⟨-, hback⟩ := hat
  rcases mark_cases s t through reason with ⟨-, -, hm⟩ | ⟨-, r, hm⟩
  · rw [hm]
    refine ⟨⟨h.legs, ?_, ?_⟩, ?_⟩
    · rintro ⟨⟩
      exact hback
    · rintro ⟨⟩
      exact hback
    · split
      · exact at_postCommitFrom _ _
      · trivial
  · rw [hm]
    exact h.goto trivial

variable (s : Dispatch)

/-- One step keeps the invariant. -/
theorem inv_step (c : DispatchCmd) (h : d.Inv s) : d.Inv (d.step s c) := by
  have hstep := step_taken (d := d) s c
  have hat := h.at_
  generalize d.step s c = s' at hstep ⊢
  cases hstep with
  | idle => exact h
  | reserve r hph =>
    rw [hph] at hat
    exact h.goto (at_attending (attending_reserved ..) hat.1 hat.2)
  | validate err hph =>
    rw [hph] at hat
    exact h.goto (at_attending (attending_validated ..) hat.1 hat.2)
  | execute i err hph =>
    refine h.withLegs hph (length_executeLeg ..) fun hd => ?_
    exact durable_executeLeg ((h.executing hph).2 hd) i err
  | commit i err hph =>
    refine h.withLegs hph (length_commitLeg ..) fun hd => ?_
    rw [commitLeg_of_collapsed hd]
    exact (h.executing hph).2 hd
  | joinCollapsed err hph hd => exact h.joinCollapsed hd hph err
  | joinPhased err hph hd hjoin => exact h.joinPhased hd hph hjoin
  | mark hph => exact h.mark hph
  | postCommit hph => exact ⟨⟨h.legs, h.committed, h.released⟩, at_postCommitFrom _ _⟩
  | storageError | crash => exact h.goto trivial
  | sweep now =>
    refine h.withRow ?_
    rcases s.row.expire_cases now with hr | ⟨-, -, -, hr⟩
    · rw [hr]
      exact .inl (.refl _)
    · rw [hr]
      exact .inr rfl
  | purge retentionSecs now => exact h.withRow (.inl (s.row.sameOutcome_purge retentionSecs now))

/-! ### The outcome -/

/-- An outcome, once written, is not changed by a step. -/
theorem sameOutcome_step (c : DispatchCmd) (h : s.row.status ≠ .active) :
    s.row.SameOutcome (d.step s c).row := by
  have hstep := step_taken (d := d) s c
  generalize d.step s c = s' at hstep ⊢
  cases hstep with
  | joinCollapsed err hph hd =>
    rw [row_joinCollapsed]
    exact .refl _
  | joinPhased err hph hd hjoin =>
    rw [row_joinPhased]
    exact .refl _
  | mark hph =>
    rcases mark_cases s _ _ _ with ⟨-, hact, -⟩ | ⟨-, r, hm⟩
    · exact absurd hact h
    · rw [hm]
      exact .refl _
  | sweep now =>
    rw [TxnRow.expire_of_ended h]
    exact .refl _
  | purge retentionSecs now => exact s.row.sameOutcome_purge retentionSecs now
  | _ => exact .refl _

/-- An outcome, once written, stays. -/
theorem sameOutcome_run {s : Dispatch} (h : s.row.status ≠ .active) (cmds : List DispatchCmd) :
    s.row.SameOutcome (run d.step s cmds).row := by
  refine invariant_run (I := fun s' : Dispatch => s.row.SameOutcome s'.row) ?_ (.refl _) cmds
  intro s' c hs'
  exact hs'.trans (sameOutcome_step s' c (hs'.1 ▸ h))

/-- The dispatcher is gone. -/
def Finished : Prop := (∃ r, s.phase = .returned r) ∨ s.phase = .crashed

/-- Nothing becomes durable after the dispatcher is gone. -/
theorem legs_step_of_finished (c : DispatchCmd) (h : Finished s) :
    Finished (d.step s c) ∧ (d.step s c).legs = s.legs := by
  have hne : ∀ ph, s.phase = ph → (∃ r, ph = .returned r) ∨ ph = .crashed := by
    rintro ph rfl
    exact h
  have hstep := step_taken (d := d) s c
  generalize d.step s c = s' at hstep ⊢
  cases hstep with
  | storageError err => exact ⟨.inl ⟨_, rfl⟩, rfl⟩
  | crash => exact ⟨.inr rfl, rfl⟩
  | idle | sweep | purge => exact ⟨h, rfl⟩
  | reserve _ hph | validate _ hph | execute _ _ hph | commit _ _ hph | joinCollapsed _ hph
  | joinPhased _ hph | mark hph | postCommit hph =>
    rcases hne _ hph with ⟨r, hr⟩ | hr <;> cases hr

theorem legs_run_of_finished {s : Dispatch} (h : Finished s) (cmds : List DispatchCmd) :
    (run d.step s cmds).legs = s.legs := by
  refine (invariant_run (I := fun s' => Finished s' ∧ s'.legs = s.legs) ?_ ⟨h, rfl⟩ cmds).2
  rintro s' c ⟨hf, hl⟩
  obtain ⟨hf', hl'⟩ := legs_step_of_finished (d := d) s' c hf
  exact ⟨hf', hl'.trans hl⟩

end Dispatcher

/-- The steps of the sweeper. -/
def DispatchCmd.bySweeper : DispatchCmd → Bool
  | .sweep _ | .purge .. => true
  | _ => false

namespace Dispatcher

variable {d : Dispatcher}

/-- The dispatcher expires a row in its marking only, and returns then. -/
theorem step_expired {s : Dispatch} {c : DispatchCmd} (hI : d.Inv s) (hc : c.bySweeper = false)
    (hact : s.row.status = .active) (hexp : (d.step s c).row.status = .ended .expired) :
    Finished (d.step s c) ∧ durable (d.step s c).legs = (d.step s c).row.committedThrough ∧
      (d.collapsed = true → (d.step s c).row.committedThrough = 0) := by
  have hat := hI.at_
  have hne : s.row.status ≠ .ended .expired := by
    rw [hact]
    exact TxnStatus.noConfusion
  have hstep := step_taken (d := d) s c
  generalize d.step s c = s' at hstep hexp ⊢
  cases hstep with
  | mark hph =>
    rename_i t through reason
    rw [hph] at hat
    rcases mark_cases s t through reason with ⟨-, -, hm⟩ | ⟨-, r, hm⟩
    · rw [hm] at hexp ⊢
      cases hexp
      exact ⟨.inl ⟨_, rfl⟩, hat.2⟩
    · rw [hm] at hexp
      exact absurd hexp hne
  | joinCollapsed err hph hd =>
    rw [row_joinCollapsed] at hexp
    exact absurd hexp hne
  | joinPhased err hph hd hjoin =>
    rw [row_joinPhased] at hexp
    exact absurd hexp hne
  | sweep now | purge retentionSecs now => cases hc
  | _ => exact absurd hexp hne

/-- **The outcome record is truthful.**  Whatever fails, however the dispatcher, its goroutines
and the sweeper interleave, and wherever the process stops: a committed row counts all
participants, each of which is durable; of a released one none is; an ended row keeps its
outcome; and what the dispatcher counts when it expires a row is what is durable then and
ever after. -/
theorem outcome_truthful (d : Dispatcher) (deadlineNs createdAt : Int) (cmds : List DispatchCmd) :
    let s := run d.step (d.start deadlineNs createdAt) cmds
    d.Truthful s ∧
      (s.row.status ≠ .active → ∀ more, s.row.SameOutcome (run d.step s more).row) ∧
      ∀ c, c.bySweeper = false → s.row.status = .active →
        (d.step s c).row.status = .ended .expired →
        (d.collapsed = true → (d.step s c).row.committedThrough = 0) ∧
        ∀ more,
          durable (run d.step (d.step s c) more).legs = (d.step s c).row.committedThrough := by
  intro s
  have hI : d.Inv s := invariant_run inv_step (inv_start deadlineNs createdAt) cmds
  refine ⟨hI.toTruthful, sameOutcome_run, fun c hc hact hexp => ?_⟩
  obtain ⟨hfin, hdur, hcol⟩ := step_expired hI hc hact hexp
  refine ⟨hcol, fun more => ?_⟩
  rw [legs_run_of_finished hfin]
  exact hdur

/-! ### The gap before the marking -/

/-- The row is there and active. -/
def Live (row : TxnRow) : Prop := row.status = .active ∧ row.deleted = false

variable (d)

/-- The row tells that all participants committed, and all of them have been told. -/
def Recorded (s : Dispatch) : Prop :=
  s.row.status = .ended .committed ∧ s.row.committedThrough = d.participants.length ∧
    s.postCommitted = d.participants

/-- How far an undisturbed dispatcher has recorded its outcome. -/
def Undisturbed (s : Dispatch) : Phase → Prop
  | .reserving .. | .validating .. | .executing | .marking .. =>
    Live s.row ∧ s.postCommitted = []
  | .postCommitting _ p rest =>
    s.row.status = .ended .committed ∧ s.row.committedThrough = d.participants.length ∧
      s.postCommitted ++ p :: rest = d.participants
  | .returned _ => Leg.committed ∈ s.legs → d.Recorded s
  | .crashed => True

variable {d} {s : Dispatch}

theorem undisturbed_attending {ph : Phase} (hph : Attending ph)
    (h : Live s.row ∧ s.postCommitted = []) : d.Undisturbed s ph := by
  cases hph <;> exact h

theorem undisturbed_postCommitFrom {through : Nat} {l : List ParticipantSpec}
    (hst : s.row.status = .ended .committed) (hn : s.row.committedThrough = d.participants.length)
    (hl : s.postCommitted ++ l = d.participants) : d.Undisturbed s (postCommitFrom through l) := by
  cases l with
  | nil =>
    rw [append_nil] at hl
    exact fun _ => ⟨hst, hn, hl⟩
  | cons p rest => exact ⟨hst, hn, hl⟩

/-- Only the phase of a state matters beside its row, its legs and its calls. -/
theorem Undisturbed.goto {ph : Phase} (h : d.Undisturbed s ph) :
    d.Undisturbed { s with phase := ph } ph := by
  cases ph <;> exact h

/-- The marking of an undisturbed dispatcher on the collapsed path finds the row active; what
it does not mark as committed has left nothing behind. -/
theorem Undisturbed.mark (hd : d.collapsed = true) (hI : d.Inv s) {t : Terminal} {through : Nat}
    {reason : String} (hph : s.phase = .marking t through reason)
    (h : d.Undisturbed s (.marking t through reason)) :
    d.Undisturbed (d.mark s t through reason) (d.mark s t through reason).phase := by
  have hat := hI.at_
  rw [hph] at hat
  obtain ⟨-, hback⟩ := hat
  obtain ⟨⟨hact, hdel⟩, hpc⟩ := h
  rcases mark_cases s t through reason with ⟨-, -, hm⟩ | ⟨hno, -⟩
  · rw [hm]
    have hnone : durable s.legs = 0 → Leg.committed ∉ s.legs := fun h0 hmem =>
      durable_eq_zero_iff.mp h0 _ hmem rfl
    cases t with
    | committed =>
      refine undisturbed_postCommitFrom rfl hback.1 ?_
      rw [hpc, nil_append]
    | released => exact fun hmem => absurd hmem (hnone hback)
    | expired => exact fun hmem => absurd hmem (hnone (hback.1.trans (hback.2 hd)))
  · exact absurd ⟨hdel, hact⟩ hno

end Dispatcher

/-- The process and the instance's database hold. -/
def DispatchCmd.Sound : DispatchCmd → Prop
  | .crash | .storageError _ => False
  | _ => True

instance : DecidablePred DispatchCmd.Sound
  | .crash | .storageError _ => .isFalse id
  | .reserve _ | .validate _ | .execute .. | .commit .. | .join _ | .mark | .postCommit
  | .sweep _ | .purge .. => .isTrue trivial

/-- A sweep that finds the row active is not past its deadline. -/
def Dispatch.Prompt (s : Dispatch) : DispatchCmd → Prop
  | .sweep now => s.row.status = .active → now ≤ s.row.deadlineNs
  | _ => True

instance (s : Dispatch) : DecidablePred s.Prompt
  | .sweep _ => inferInstanceAs (Decidable (_ → _))
  | .crash | .storageError _ | .reserve _ | .validate _ | .execute .. | .commit .. | .join _
  | .mark | .postCommit | .purge .. => .isTrue trivial

namespace Dispatcher

variable {d : Dispatcher}

/-- A prompt sweep leaves the row. -/
theorem expire_of_prompt {s : Dispatch} {now : Int} (h : s.Prompt (.sweep now)) :
    s.row.expire now = s.row := by
  rcases s.row.expire_cases now with hr | ⟨hact, hlate, -, -⟩
  · exact hr
  · exact absurd (h hact) (not_le.mpr hlate)

theorem undisturbed_step (hd : d.collapsed = true) (s : Dispatch) (c : DispatchCmd)
    (hI : d.Inv s) (h : d.Undisturbed s s.phase) (hc : c.Sound) (hp : s.Prompt c) :
    d.Undisturbed (d.step s c) (d.step s c).phase := by
  have hstep := step_taken (d := d) s c
  generalize d.step s c = s' at hstep ⊢
  cases hstep with
  | idle => exact h
  | reserve r hph =>
    rw [hph] at h
    exact (undisturbed_attending (attending_reserved ..) h).goto
  | validate err hph =>
    rw [hph] at h
    exact (undisturbed_attending (attending_validated ..) h).goto
  | execute i err hph | commit i err hph =>
    rw [hph] at h ⊢
    exact h
  | joinCollapsed err hph =>
    rw [hph] at h
    rcases joinCollapsed_cases s err with ⟨reason, hj⟩ | hj | hj <;> rw [hj]
    · exact h
    · trivial
    · exact h
  | joinPhased err hph hd' => exact absurd (hd.symm.trans hd') (by decide)
  | mark hph => exact Undisturbed.mark hd hI hph (hph ▸ h)
  | postCommit hph =>
    rw [hph] at h
    refine undisturbed_postCommitFrom h.1 h.2.1 ?_
    rw [append_assoc]
    exact h.2.2
  | storageError err | crash => exact hc.elim
  | sweep now =>
    rw [expire_of_prompt hp]
    exact h
  | purge retentionSecs now =>
    obtain ⟨hst, hn⟩ := s.row.sameOutcome_purge retentionSecs now
    cases hph : s.phase <;> rw [hph] at h
    case postCommitting => exact ⟨hst.trans h.1, hn.trans h.2.1, h.2.2⟩
    case returned => exact fun hmem => ⟨hst.trans (h hmem).1, hn.trans (h hmem).2.1, (h hmem).2.2⟩
    case crashed => trivial
    all_goals
      rw [TxnRow.purge_of_active h.1.1]
      exact h

/-- Only ended rows are deleted. -/
theorem ended_of_deleted_step (s : Dispatch) (c : DispatchCmd)
    (h : s.row.deleted = true → s.row.status ≠ .active) :
    (d.step s c).row.deleted = true → (d.step s c).row.status ≠ .active := by
  have hstep := step_taken (d := d) s c
  generalize d.step s c = s' at hstep ⊢
  cases hstep with
  | joinCollapsed err hph hd => rwa [row_joinCollapsed]
  | joinPhased err hph hd hjoin => rwa [row_joinPhased]
  | mark hph =>
    rcases mark_cases s _ _ _ with ⟨-, -, hm⟩ | ⟨-, r, hm⟩ <;> rw [hm]
    · exact fun _ => TxnStatus.noConfusion
    · exact h
  | sweep now =>
    rcases s.row.expire_cases now with hr | ⟨-, -, -, hr⟩
    · rwa [hr]
    · rw [hr]
      exact fun _ => TxnStatus.noConfusion
  | purge retentionSecs now =>
    intro hdel hact
    rw [(s.row.sameOutcome_purge retentionSecs now).1] at hact
    rw [TxnRow.purge_of_active hact] at hdel
    exact h hdel hact
  | _ => exact h

/-- A row that ends as committed was swept promptly: an overdue sweep would have ended it
first, and for good. -/
theorem prompt_of_committed {s : Dispatch} {cmds : List DispatchCmd}
    (hdel : s.row.deleted = true → s.row.status ≠ .active)
    (h : (run d.step s cmds).row.status = .ended .committed) :
    Along d.step Dispatch.Prompt s cmds := by
  induction cmds generalizing s with
  | nil => trivial
  | cons c cmds ih =>
    refine ⟨?_, ih (ended_of_deleted_step s c hdel) h⟩
    cases c with
    | sweep now =>
      intro hact
      by_contra hlate
      have hr : s.row.expire now =
          { s.row with status := .ended .expired, committedThrough := 0 } :=
        if_pos ⟨Bool.eq_false_iff.mpr fun hd => hdel hd hact, hact, not_le.mp hlate⟩
      have hexp : (d.step s (.sweep now)).row.status = .ended .expired :=
        congrArg TxnRow.status hr
      have hsame := sameOutcome_run (d := d) (hexp.trans_ne TxnStatus.noConfusion) cmds
      cases hexp.symm.trans (hsame.1.symm.trans h)
    | _ => trivial

/-- **Recording a committed instance.**  On the collapsed path, with no crash and no storage
error, an instance whose shared transaction was committed and whose dispatcher has returned is
recorded as committed, with all participants counted and told, iff no sweep past its deadline
found its row active. -/
theorem collapsed_committed_iff (d : Dispatcher) (hd : d.collapsed = true)
    (deadlineNs createdAt : Int) (cmds : List DispatchCmd) (hsound : ∀ c ∈ cmds, c.Sound)
    (hret : ∃ r, (run d.step (d.start deadlineNs createdAt) cmds).phase = .returned r)
    (hcommit : Leg.committed ∈ (run d.step (d.start deadlineNs createdAt) cmds).legs) :
    d.Recorded (run d.step (d.start deadlineNs createdAt) cmds) ↔
      Along d.step Dispatch.Prompt (d.start deadlineNs createdAt) cmds := by
  constructor
  · intro h
    exact prompt_of_committed (fun hdel => nomatch hdel) h.1
  · intro hprompt
    obtain ⟨-, hund⟩ := invariant_of_along (I := fun s => d.Inv s ∧ d.Undisturbed s s.phase)
      (fun s c hs hc => ⟨inv_step s c hs.1, undisturbed_step hd s c hs.1 hs.2 hc.2 hc.1⟩)
      ⟨inv_start deadlineNs createdAt,
        undisturbed_attending (attending_reserveFrom _) ⟨⟨rfl, rfl⟩, rfl⟩⟩
      (hprompt.and_forall hsound)
    obtain ⟨r, hr⟩ := hret
    rw [hr] at hund
    exact hund hcommit

/-- Two participants of one database. -/
def twoLegs : Dispatcher where
  txnID := 7
  participants := [⟨"room", "cal"⟩, ⟨"payment", "bal"⟩]
  collapseEligible := true
  engineHomogeneous := true
  pebbleDB := false
  locDB := false
  objDB := false

/-- The dispatcher up to the commit of the shared transaction. -/
def throughCommit : List DispatchCmd :=
  [.reserve .held, .reserve .held, .validate none, .validate none,
   .execute 1 none, .execute 0 none, .join none]

/-- A sweep at the deadline leaves the instance to its dispatcher. -/
theorem collapsed_committed_at_deadline : twoLegs.Recorded (run twoLegs.step (twoLegs.start 100 0)
      (throughCommit ++ [.sweep 100, .mark, .postCommit, .postCommit, .sweep 200])) :=
  (collapsed_committed_iff twoLegs rfl 100 0 _ (by decide) ⟨_, rfl⟩ (by decide)).mpr (by decide)

/-- A sweep one nanosecond past the deadline, between the commit of the shared transaction and
the marking, records an expired instance with nothing committed; both effects are durable, the
dispatcher returns an error and no participant is told. -/
theorem sweep_before_mark : let cmds := throughCommit ++ [.sweep 101, .mark]
    let s := run twoLegs.step (twoLegs.start 100 0) cmds
    (∀ c ∈ cmds, c.Sound) ∧ s.legs = [.committed, .committed] ∧
      s.row.status = .ended .expired ∧ s.row.committedThrough = 0 ∧ s.postCommitted = [] ∧
      s.phase = .returned (.error "instance 7 was not active at commit time (unexpected)") ∧
      ¬ twoLegs.Recorded s := by
  refine ⟨by decide, rfl, rfl, rfl, rfl, rfl, ?_⟩
  exact fun h => nomatch h.1

end Dispatcher

end Xolu.Server
