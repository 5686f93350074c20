/-
# Batches (pkg/timeseries/store.go)

`AppendBatch` in direct mode checks all events of the batch and then writes them in one commit.  In
coalescing mode it hands every event over as soon as it has checked it, so that an invalid event
ends the call when the events before it are on their way into the store; and the coalescer, which
looks the timeline up again, may refuse an event and write the others.

A batch is all or nothing in every run in which no batch in coalescing mode comes to an invalid
event after its first one, and no event of a larger batch is refused by the coalescer
(`allOrNothing_run`).
-/
import Xolu.Timeseries.Replies

namespace Xolu.Timeseries

open List Job Call Runs
namespace WriteSite

variable {s s' : WriteSite} {a : SiteStep} {c : Nat} {call call' : Call} {instr : Instr}

/-- **All or nothing**: a batch that has returned without an error is written, and of one with an
invalid event nothing is. -/
structure AllOrNothing (s : WriteSite) : Prop where
  all : ∀ (c : Nat) (call : Call), s.calls[c]? = some call → call.job.isBatch →
    call.result = some none → ∀ i e, call.job.events[i]? = some e →
      ∃ p ∈ s.written, p.entry = ⟨c, i, e⟩
  nothing : ∀ (c : Nat) (call : Call), s.calls[c]? = some call → call.job.isBatch →
    ∀ err, call.result = some (some err) → err.isInvalid → ∀ p ∈ s.written, p.entry.call ≠ c

/-- An event that is not the first one of a batch in coalescing mode fails the checks of the call,
or one of a batch of several events those of the coalescer. -/
def tearsBatch (s : WriteSite) : SiteStep → Bool
  | .advance c _ =>
    match s.calls[c]? with
    | none => false
    | some call =>
      match call.instr? with
      | some (.check i e) =>
        call.job.isBatch && call.job.coal && decide (i ≠ 0) && !(s.examine call.job e).isOk
      | _ => false
  | .receive =>
    match s.queue with
    | [] => false
    | x :: _ =>
      !(s.encodeEntry x).isOk && s.calls[x.call]?.any fun call => 1 < call.job.events.length
  | _ => false

/-! ### What the instructions have done -/

/-- What is behind a call has been done: replies were read, events prepared, and what was prepared
is written. -/
structure Executed (s : WriteSite) (c : Nat) (call : Call) : Prop where
  awaited : ∀ i, .await i ∈ call.done → ∃ x, x.call = c ∧ x.index = i ∧ (x, none) ∈ s.replies
  checked : call.job.isBatch → call.job.coal = false → ∀ i e, .check i e ∈ call.done →
    ∃ p ∈ call.prepared, p.entry = ⟨c, i, e⟩
  wrote : .write ∈ call.done → ∀ p ∈ call.prepared, p ∈ s.written
  returned : call.Returned

theorem executed_begin (s : WriteSite) (c : Nat) (job : Job) : Executed s c (.begin job) where
  awaited _ h := absurd h not_mem_nil
  checked _ _ _ _ h := absurd h not_mem_nil
  wrote h := absurd h not_mem_nil
  returned hresult := .inl hresult

theorem events_eq_nil_of_atOnce {job : Job} (hbatch : job.isBatch = true)
    (h : job.atOnce = some none) : job.events = [] := by
  cases job with
  | appendBatch events maxBatch coal =>
    change (if events.length = 0 then some none else _) = some none at h
    split_ifs at h with hempty hlarge
    · exact length_eq_zero_iff.mp hempty
    · cases h
  | append | deleteTimeline | close => cases hbatch

/-- An event is not checked after the write. -/
theorem write_not_done {i : Nat} {e : Input} (hinstr : call.instr? = some (.check i e)) :
    .write ∉ call.done := by
  intro hwrite
  have hprogram := (instr?_eq_some hinstr).2
  have hevent := event_of_mem (mem_of_getElem? hprogram) (.inl rfl)
  have hlt := (List.getElem?_eq_some_iff.mp hevent).1
  have hrank := (mem_take_iff (events_ne_nil hevent) hprogram
    (mem_program_of_done hwrite)).mp hwrite
  simp only [rank] at hrank
  omega

/-- **What a step does to a call is done.** -/
theorem Executed.step (h : Executed s c call) (ho : Outcome s a s')
    (hstep : CallStep s a s' c call call') : Executed s' c call' := by
  have hawaited : ∀ i, .await i ∈ call.done →
      ∃ x, x.call = c ∧ x.index = i ∧ (x, none) ∈ s'.replies := by
    intro i hdone
    obtain ⟨x, hcall, hindex, hreply⟩ := h.awaited i hdone
    exact ⟨x, hcall, hindex, ho.mono.1 hreply⟩
  have hwrote : .write ∈ call.done → ∀ p ∈ call.prepared, p ∈ s'.written := fun hdone p hp =>
    ho.mono.2 (h.wrote hdone p hp)
  have hreturned := hstep.returned h.returned
  cases hstep with
  | same | fail => exact ⟨hawaited, h.checked, hwrote, hreturned⟩
  | @next instr prepared dims hinstr heffect =>
    have hdone : ({ call.next with prepared, dims } : Call).done = call.done ++ [instr] :=
      done_next hinstr
    have hgrow : call.prepared ⊆ prepared := by
      by_cases hchecks : ∃ i e, instr = .check i e
      · obtain ⟨i, e, heq⟩ := hchecks
        obtain ⟨kv, -, rfl⟩ := heffect.check i e heq
        exact subset_append_left _ _
      · rw [heffect.keep fun i e heq => hchecks ⟨i, e, heq⟩]
        exact fun _ => id
    refine ⟨?_, ?_, ?_, hreturned⟩
    · intro i hmem
      rw [hdone, mem_append, mem_singleton] at hmem
      rcases hmem with hmem | rfl
      · exact hawaited i hmem
      · obtain ⟨x, hcall, hindex, hmem⟩ := mem_replies_of_reply? (heffect.await i rfl)
        exact ⟨x, hcall, hindex, ho.mono.1 hmem⟩
    · intro hbatch hcoal i e hmem
      rw [hdone, mem_append, mem_singleton] at hmem
      rcases hmem with hmem | rfl
      · obtain ⟨p, hp, hentry⟩ := h.checked hbatch hcoal i e hmem
        exact ⟨p, hgrow hp, hentry⟩
      · obtain ⟨kv, hexamine, rfl⟩ := heffect.check i e rfl
        obtain ⟨kv, rfl⟩ := Option.isSome_iff_exists.mp
          ((examine_eq_ok hexamine).2.1 (of_isBatch hbatch).1)
        have hcoal : ¬ call.job.coal = true := Bool.eq_false_iff.mp hcoal
        rw [if_neg hcoal]
        exact ⟨_, mem_append_right _ mem_cons_self, rfl⟩
    · intro hmem p hp
      rw [hdone, mem_append, mem_singleton] at hmem
      rcases hmem with hmem | rfl
      · -- nothing is prepared after the write
        obtain rfl := heffect.keep fun i e heq => write_not_done (heq ▸ hinstr) hmem
        exact hwrote hmem p hp
      · obtain rfl := heffect.keep fun i e heq => by cases heq
        rw [heffect.write rfl]
        exact mem_append_right _ hp

/-! ### Runs -/

/-- Of a batch with an invalid event nothing was handed over or written, or the coalescer has
refused the event. -/
def Spared (s : WriteSite) (c : Nat) (call : Call) : Prop :=
  call.job.isBatch → ∀ err, call.result = some (some err) → err.isInvalid →
    (∀ j e, .send j e ∉ call.done) ∧ .write ∉ call.done ∨
      ∃ x err', err = .coalesced err' ∧ x.call = c ∧ (x, some err') ∈ s.replies

/-- What holds in every run that meets the condition. -/
structure Whole (s : WriteSite) : Prop where
  accounts : Accounts s
  executed : ∀ (c : Nat) (call : Call), s.calls[c]? = some call → Executed s c call
  spared : ∀ (c : Nat) (call : Call), s.calls[c]? = some call → Spared s c call
  refused : ∀ x err, (x, some err) ∈ s.replies → err ≠ .pebble → ∀ call : Call,
    s.calls[x.call]? = some call → call.job.events.length ≤ 1

/-- Of a batch in direct mode nothing is handed over. -/
theorem send_not_done {i j : Nat} {e e' : Input} (hinstr : call.instr? = some (.check i e))
    (hfirst : call.job.isBatch → call.job.coal = true → i = 0) (hbatch : call.job.isBatch) :
    .send j e' ∉ call.done := by
  intro hsend
  have hprogram := (instr?_eq_some hinstr).2
  have hcoal := coal_of_send (mem_program_of_done hsend)
  have hevent := event_of_mem (mem_of_getElem? hprogram) (.inl rfl)
  have hrank := (mem_take_iff (events_ne_nil hevent) hprogram (mem_program_of_done hsend)).mp hsend
  have := hfirst hbatch hcoal
  simp only [rank] at hrank
  omega

theorem spared_step {a : SiteStep}
    (hs : ∀ (c : Nat) (call : Call), s.calls[c]? = some call → Spared s c call)
    (hcond : s.tearsBatch a = false) (hcall' : (s.step a).calls[c]? = some call') :
    Spared (s.step a) c call' := by
  have ho := step_outcome s a
  rcases ho.call_cases hcall' with ⟨-, job, rfl⟩ | ⟨call, hcall, hstep⟩
  · intro _ err _ _
    exact .inl ⟨fun j e h => absurd h not_mem_nil, fun h => absurd h not_mem_nil⟩
  cases hstep with
  | same =>
    intro hbatch err hresult hinvalid
    refine (hs c _ hcall hbatch err hresult hinvalid).imp_right ?_
    rintro ⟨x, err', herr, hx, hreply⟩
    exact ⟨x, err', herr, hx, ho.mono.1 hreply⟩
  | @fail instr err hinstr hturn herror =>
    rintro hbatch err' hresult hinvalid
    obtain rfl : err = err' := Option.some.inj (Option.some.inj hresult)
    rcases herror hbatch hinvalid with ⟨i, e, err', rfl, hexamine⟩ | ⟨i, err', herr, hreply⟩
    · have hfirst : call.job.isBatch → call.job.coal = true → i = 0 := by
        intro hbatch hcoal
        rcases hturn with ⟨ok, rfl⟩ | ⟨-, rfl⟩
        · simpa [tearsBatch, hcall, hinstr, hbatch, hcoal, hexamine, Except.isOk, Except.toBool]
            using hcond
        · cases hinvalid
      have hspared : (∀ j e', .send j e' ∉ call.done) ∧ .write ∉ call.done :=
        ⟨fun j e' => send_not_done hinstr hfirst hbatch, write_not_done hinstr⟩
      exact .inl hspared
    · obtain ⟨x, hx, -, hmem⟩ := mem_replies_of_reply? hreply
      exact .inr ⟨x, err', herr, hx, ho.mono.1 hmem⟩
  | next _ _ _ _ =>
    intro hbatch err hresult
    change (if call.pc + 1 = call.job.program.length then some none else none) = _ at hresult
    split_ifs at hresult
    cases hresult

/-- A step that answers with an error of the checks is one of the coalescer. -/
theorem refused_step {a : SiteStep} {x : Entry} {err : WriteError} (hs : Whole s)
    (hcond : s.tearsBatch a = false) (hreply : (x, some err) ∈ (s.step a).replies)
    (herr : err ≠ .pebble) (hcall' : (s.step a).calls[x.call]? = some call') :
    call'.job.events.length ≤ 1 := by
  have ho := step_outcome s a
  rcases ho.call_cases hcall' with ⟨hnone, job, rfl⟩ | ⟨call, hcall, hstep⟩
  · -- a call that is new has handed nothing over
    have haccounts := hs.accounts.step a
    have hsend := (haccounts.sent_iff x).mp (haccounts.sent_of_replied (mem_map_of_mem hreply))
    rw [doneAt_of_call hcall'] at hsend
    exact absurd hsend not_mem_nil
  rw [hstep.job_eq]
  rcases ho.written_spec with ⟨-, hreplies⟩ | ⟨_, _, -, -, -, hreplies⟩ |
    ⟨x', queue, err', rfl, hqueue, hrefuse, -, hreplies⟩ | ⟨ok, -, hreplies⟩
  · exact hs.refused x err (hreplies ▸ hreply) herr call hcall
  · exact hs.refused x err (hreplies ▸ hreply) herr call hcall
  · rw [hreplies, mem_append, mem_singleton] at hreply
    rcases hreply with hreply | hreply
    · exact hs.refused x err hreply herr call hcall
    · cases hreply
      simpa [tearsBatch, hqueue, hrefuse, hcall, Except.isOk, Except.toBool] using hcond
  · rw [hreplies, mem_append, mem_map] at hreply
    rcases hreply with hreply | ⟨p, -, hp⟩
    · exact hs.refused x err hreply herr call hcall
    · -- a batch of the coalescer fails as a whole
      have houtcome : s.outcome ok = some err := congrArg Prod.snd hp
      unfold outcome at houtcome
      split_ifs at houtcome
      exact absurd (Option.some.inj houtcome).symm herr

namespace Whole

theorem opened (store : PebbleStore Stored) (coalescing : Bool) :
    Whole (opened store coalescing) where
  accounts := .opened store coalescing
  executed c call hcall := by simp [WriteSite.opened] at hcall
  spared c call hcall := by simp [WriteSite.opened] at hcall
  refused x err hreply := absurd hreply not_mem_nil

theorem step {a : SiteStep} (h : Whole s) (hcond : s.tearsBatch a = false) : Whole (s.step a) where
  accounts := h.accounts.step a
  executed c call' hcall' := by
    rcases (step_outcome s a).call_cases hcall' with ⟨-, job, rfl⟩ | ⟨call, hcall, hstep⟩
    · exact executed_begin _ c job
    · exact (h.executed c call hcall).step (step_outcome s a) hstep
  spared c call hcall := spared_step h.spared hcond hcall
  refused x err hreply herr call hcall := refused_step h hcond hreply herr hcall

theorem all (h : Whole s) (hcall : s.calls[c]? = some call) (hbatch : call.job.isBatch)
    (hresult : call.result = some none) {i : Nat} {e : Input}
    (hevent : call.job.events[i]? = some e) : ∃ p ∈ s.written, p.entry = ⟨c, i, e⟩ := by
  have hexecuted := h.executed c call hcall
  have hdone : call.done = call.job.program :=
    (hexecuted.returned hresult).resolve_left fun hnone =>
      events_ne_nil hevent (events_eq_nil_of_atOnce hbatch hnone)
  cases hcoal : call.job.coal with
  | true =>
    -- the reply was for this event
    have hawait : .await i ∈ call.done := by
      rw [hdone, mem_program_coal hcoal]
      exact .inr (.inr ⟨i, (List.getElem?_eq_some_iff.mp hevent).1, rfl⟩)
    obtain ⟨x, rfl, rfl, hreply⟩ := hexecuted.awaited i hawait
    have hsend := (h.accounts.sent_iff x).mp (h.accounts.sent_of_replied (mem_map_of_mem hreply))
    rw [doneAt_of_call hcall] at hsend
    have hinput := event_of_mem (mem_program_of_done hsend) (.inr rfl)
    rw [hevent, Option.some.injEq] at hinput
    rw [hinput]
    exact (h.accounts.nil_iff _ hreply).mp rfl
  | false =>
    have hchecked : .check i e ∈ call.done := by
      rw [hdone, mem_program_direct hcoal (of_isBatch hbatch).2]
      exact .inl ⟨i, e, hevent, rfl⟩
    have hwrite : .write ∈ call.done := by
      rw [hdone, mem_program_direct hcoal (of_isBatch hbatch).2]
      exact .inr rfl
    obtain ⟨p, hp, hentry⟩ := hexecuted.checked hbatch hcoal i e hchecked
    exact ⟨p, hexecuted.wrote hwrite p hp, hentry⟩

theorem nothing (h : Whole s) (hcall : s.calls[c]? = some call) (hbatch : call.job.isBatch)
    {err : WriteError} (hresult : call.result = some (some err)) (hinvalid : err.isInvalid) :
    ∀ p ∈ s.written, p.entry.call ≠ c := by
  rintro p hp rfl
  rcases h.spared _ call hcall hbatch err hresult hinvalid with
    ⟨hsend, hwrite⟩ | ⟨x, err', rfl, hx, hreply⟩
  · rcases h.accounts.origin p hp with hreplied | hwritten
    · have hdone := (h.accounts.sent_iff p.entry).mp (h.accounts.sent_of_replied hreplied)
      rw [doneAt_of_call hcall] at hdone
      exact hsend _ _ hdone
    · rw [doneAt_of_call hcall] at hwritten
      exact hwrite hwritten
  · -- the batch has one event, and it was refused
    have hone := h.refused x err' hreply (of_decide_eq_true hinvalid) call (hx ▸ hcall)
    have hsent := h.accounts.sent_of_replied (mem_map_of_mem hreply)
    rcases h.accounts.origin p hp with hreplied | hwritten
    · have hsent' := h.accounts.sent_of_replied hreplied
      have hindex : ∀ y ∈ s.sent, y.call = p.entry.call → y.index = 0 := by
        intro y hy hcally
        have hlt := h.accounts.index_lt hy (hcally ▸ hcall)
        omega
      obtain rfl := h.accounts.eq_of_sent hsent hsent' hx
        ((hindex x hsent hx).trans (hindex _ hsent' rfl).symm)
      have hnil := (h.accounts.nil_iff _ hreply).mpr ⟨p, hp, rfl⟩
      cases hnil
    · obtain ⟨call', hcall', hcoal⟩ := h.accounts.coal_of_sent hsent
      rw [hx, hcall, Option.some.injEq] at hcall'
      rw [doneAt_of_call hcall] at hwritten
      rw [← hcall', not_coal_of_write (mem_program_of_done hwritten)] at hcoal
      cases hcoal

theorem allOrNothing (h : Whole s) : AllOrNothing s where
  all _ _ hcall hbatch hresult _ _ hevent := h.all hcall hbatch hresult hevent
  nothing _ _ hcall hbatch _ hresult hinvalid := h.nothing hcall hbatch hresult hinvalid

end Whole

/-- **Batches are all or nothing**: in every run in which no batch in coalescing mode comes to an
invalid event after its first one, and none of several events is refused in part, a batch that has
returned without an error is written, and of one with an invalid event nothing is. -/
theorem allOrNothing_run (store : PebbleStore Stored) (coalescing : Bool) (steps : List SiteStep)
    (h : Runs.Along step (fun s a => s.tearsBatch a = false) (opened store coalescing) steps) :
    AllOrNothing (run step (opened store coalescing) steps) :=
  (invariant_of_along (I := Whole) (fun _ _ hs hcond => hs.step hcond)
    (.opened store coalescing) h).allOrNothing

/-- A batch of two readings, the second one before the epoch. -/
def badBatch (coal : Bool) : Job := .appendBatch [reading 10, reading (-1)] 0 coal

/-- The batch is called and goes on for a while, then the coalescer takes a round. -/
def badRun (coal : Bool) : List SiteStep :=
  [.call (badBatch coal), .advance 0 true, .advance 0 true, .advance 0 true, .advance 0 true,
    .receive, .flush true]

theorem allOrNothing_badRun : (oneRun (badRun false)).calls[0]?.map result =
      some (some (some (.event 1 (.ts .beforeEpoch)))) ∧ AllOrNothing (oneRun (badRun false)) :=
  ⟨by decide +kernel, allOrNothing_run oneStore false (badRun false) (by decide +kernel)⟩

/-- In coalescing mode the call returns the error of its second reading, and its first reading is
written. -/
theorem badRun_writes_first : ∃ call p, (oneRun (badRun true)).calls[0]? = some call ∧
      call.job.isBatch ∧ call.result = some (some (.event 1 (.ts .beforeEpoch))) ∧
      p ∈ (oneRun (badRun true)).written ∧
      p.entry = ⟨0, 0, reading 10⟩ ∧ ¬ AllOrNothing (oneRun (badRun true)) := by
  have hcall : (oneRun (badRun true)).calls[0]? =
      some { begin (badBatch true) with
        pc := 3, result := some (some (.event 1 (.ts .beforeEpoch))) } := by decide +kernel
  have hp : (⟨⟨0, 0, reading 10⟩, (reading 10).event.key, [.num 20], []⟩ : Pending) ∈
      (oneRun (badRun true)).written := by decide +kernel
  exact ⟨_, _, hcall, rfl, rfl, hp, rfl, fun h => h.nothing 0 _ hcall rfl _ rfl rfl _ hp rfl⟩

end WriteSite

end Xolu.Timeseries
