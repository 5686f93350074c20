/-
# Replies to the entries of the coalescer (pkg/timeseries/store.go)

Every entry that was handed over is in the channel, in the batch of the coalescer or answered, and
in one of these once.  An answer is without an error if and only if the entry was written
(`Accounts`, kept by every step).
-/
import Xolu.Timeseries.WriteSite

namespace Xolu.Timeseries

open Function List Call Nat Instr Pending
/-! ### Programs -/

namespace Job

variable {i j : Nat} {e e' : Input} {events : List Input} {job : Job} {instr : Instr}

theorem of_isBatch (h : job.isBatch = true) : job.encodes = true ∧ job.isWriter = true := by
  cases job with
  | appendBatch => exact ⟨rfl, rfl⟩
  | append | deleteTimeline | close => cases h

theorem exists_getElem?_cons {P : Nat → Input → Prop} :
    (∃ k e', (e :: events)[k]? = some e' ∧ P k e') ↔
      P 0 e ∨ ∃ k e', events[k]? = some e' ∧ P (k + 1) e' := by
  constructor
  · rintro ⟨k, e', hk, hP⟩
    rcases k with - | k
    · cases hk
      exact .inl hP
    · exact .inr ⟨k, e', hk, hP⟩
  · rintro (hP | ⟨k, e', hk, hP⟩)
    · exact ⟨0, e, rfl, hP⟩
    · exact ⟨k + 1, e', hk, hP⟩

theorem mem_handOver : instr ∈ handOver i events ↔
    ∃ k e, events[k]? = some e ∧ (instr = .check (i + k) e ∨ instr = .send (i + k) e) := by
  induction events generalizing i with
  | nil => simp [handOver]
  | cons e events ih =>
    rw [handOver, mem_cons, mem_cons, ih, exists_getElem?_cons, ← or_assoc]
    simp only [add_assoc, add_comm 1, add_zero]

theorem mem_checks : instr ∈ checks i events ↔
    ∃ k e, events[k]? = some e ∧ instr = .check (i + k) e := by
  induction events generalizing i with
  | nil => simp [checks]
  | cons e events ih =>
    rw [checks, mem_cons, ih, exists_getElem?_cons]
    simp only [add_assoc, add_comm 1, add_zero]

/-- The instructions of a writer. -/
theorem mem_program_coal (h : job.coal = true) : instr ∈ job.program ↔
    instr = .start ∨ (∃ k e, job.events[k]? = some e ∧ (instr = .check k e ∨ instr = .send k e)) ∨
      ∃ k < job.events.length, instr = .await k := by
  cases job with
  | append e coal =>
    obtain rfl : coal = true := h
    simp only [program, events, mem_cons, not_mem_nil, or_false, length_singleton,
      lt_one_iff, exists_eq_left, exists_getElem?_cons, getElem?_nil, reduceCtorEq,
      false_and, exists_false]
    tauto
  | appendBatch events maxBatch coal =>
    obtain rfl : coal = true := h
    simp only [program, Job.events, mem_cons, mem_append, mem_handOver, mem_map,
      mem_range, zero_add, @eq_comm _ (await _)]
  | deleteTimeline | close => cases h

theorem mem_program_direct (h : job.coal = false) (hwriter : job.isWriter = true) :
    instr ∈ job.program ↔
      (∃ k e, job.events[k]? = some e ∧ instr = .check k e) ∨ instr = .write := by
  cases job with
  | append e coal =>
    obtain rfl : coal = false := h
    simp only [program, events, mem_cons, not_mem_nil, or_false, exists_getElem?_cons,
      getElem?_nil, reduceCtorEq, false_and, exists_false]
  | appendBatch events maxBatch coal =>
    obtain rfl : coal = false := h
    simp only [program, Job.events, mem_append, mem_checks, mem_singleton, zero_add]
  | deleteTimeline | close => cases hwriter

/-- The place of an instruction among those of a writer with so many events. -/
def rank (job : Job) : Instr → Nat
  | .start => if job.isBatch then 0 else 2
  | .check i _ => 3 * i + 1
  | .send i _ => 3 * i + 3
  | .await i => 3 * job.events.length + 1 + i
  | .write => 3 * job.events.length + 1
  | _ => 0

theorem pairwise_handOver (i : Nat) (events : List Input) :
    (handOver i events).Pairwise fun a b => job.rank a < job.rank b := by
  induction events generalizing i with
  | nil => exact .nil
  | cons e events ih =>
    have hlater : ∀ b ∈ handOver (i + 1) events, 3 * i + 3 < job.rank b := by
      intro b hb
      obtain ⟨k, e', -, rfl | rfl⟩ := mem_handOver.mp hb <;> simp only [rank] <;> omega
    refine .cons (fun b hb => ?_) (.cons hlater (ih (i + 1)))
    rcases mem_cons.mp hb with rfl | hb
    · simp only [rank]
      omega
    · exact (show 3 * i + 1 < 3 * i + 3 by omega).trans (hlater b hb)

theorem checks_sublist (i : Nat) (events : List Input) : checks i events <+ handOver i events := by
  induction events generalizing i with
  | nil => exact .slnil
  | cons e events ih => exact ((ih (i + 1)).cons _).cons_cons _

/-- The instructions of a writer are in the order of their places. -/
theorem pairwise_program (h : job.events ≠ []) :
    job.program.Pairwise fun a b => job.rank a < job.rank b := by
  cases job with
  | append e coal => cases coal <;> simp [program, rank, isBatch, Job.events]
  | appendBatch events maxBatch coal =>
    have hbound : ∀ {k : Nat} {e : Input}, events[k]? = some e → k < events.length := fun hk =>
      (List.getElem?_eq_some_iff.mp hk).1
    cases coal
    · refine pairwise_append.mpr
        ⟨(pairwise_handOver 0 events).sublist (checks_sublist 0 events), pairwise_singleton _ _, ?_⟩
      rintro a ha b hb
      obtain ⟨k, e, hk, rfl⟩ := mem_checks.mp ha
      obtain rfl := mem_singleton.mp hb
      have := hbound hk
      simp only [rank, Job.events]
      omega
    · refine .cons (fun b hb => ?_) (pairwise_append.mpr ⟨pairwise_handOver 0 events, ?_, ?_⟩)
      · rcases mem_append.mp hb with hb | hb
        · obtain ⟨k, e, -, rfl | rfl⟩ := mem_handOver.mp hb <;> simp [rank, isBatch]
        · obtain ⟨k, -, rfl⟩ := mem_map.mp hb
          simp [rank, isBatch]
      · refine pairwise_map.mpr (pairwise_lt_range.imp fun hlt => ?_)
        simp only [rank]
        omega
      · rintro a ha b hb
        obtain ⟨j, -, rfl⟩ := mem_map.mp hb
        obtain ⟨k, e, hk, rfl | rfl⟩ := mem_handOver.mp ha <;> have := hbound hk <;>
          simp only [rank, Job.events] <;> omega
  | deleteTimeline | close => exact absurd rfl h

/-- Only a writer checks, hands over, waits for replies and writes. -/
theorem isWriter_of_mem (h : instr ∈ job.program)
    (hinstr : instr = .write ∨ ∃ i e, instr = .check i e ∨ instr = .send i e) :
    job.isWriter = true := by
  cases job with
  | append | appendBatch => rfl
  | deleteTimeline | close => rcases hinstr with rfl | ⟨i, e, rfl | rfl⟩ <;> simp [program] at h

theorem coal_of_send (h : .send i e ∈ job.program) : job.coal = true := by
  by_contra hcoal
  rw [Bool.not_eq_true] at hcoal
  simp [mem_program_direct hcoal (isWriter_of_mem h (.inr ⟨i, e, .inr rfl⟩))] at h

theorem not_coal_of_write (h : .write ∈ job.program) : job.coal = false := by
  by_contra hcoal
  rw [Bool.not_eq_false] at hcoal
  simp [mem_program_coal hcoal] at h

/-- What is checked and handed over is the event at the place. -/
theorem event_of_mem (h : instr ∈ job.program) (hinstr : instr = .check i e ∨ instr = .send i e) :
    job.events[i]? = some e := by
  cases hcoal : job.coal with
  | true =>
    rw [mem_program_coal hcoal] at h
    rcases hinstr with rfl | rfl <;> simpa using h
  | false =>
    rw [mem_program_direct hcoal (isWriter_of_mem h (.inr ⟨i, e, hinstr⟩))] at h
    rcases hinstr with rfl | rfl
    · simpa using h
    · simp at h

theorem events_ne_nil {k : Nat} (h : job.events[k]? = some e) : job.events ≠ [] := by
  intro hnil
  rw [hnil] at h
  cases h

variable {pc : Nat}

/-- What is behind a writer at an instruction. -/
theorem mem_take_iff {a b : Instr} (h : job.events ≠ []) (hpc : job.program[pc]? = some b)
    (ha : a ∈ job.program) : a ∈ job.program.take pc ↔ job.rank a < job.rank b := by
  obtain ⟨hlt, rfl⟩ := List.getElem?_eq_some_iff.mp hpc
  have hsplit := take_append_drop pc job.program
  have hsorted := pairwise_program h
  rw [← hsplit, drop_eq_getElem_cons hlt] at hsorted ha
  obtain ⟨-, hrest, hbefore⟩ := pairwise_append.mp hsorted
  constructor
  · intro hmem
    exact hbefore a hmem _ mem_cons_self
  · intro hrank
    rcases mem_append.mp ha with hmem | hmem
    · exact hmem
    · rcases mem_cons.mp hmem with rfl | hmem
      · exact absurd hrank (lt_irrefl _)
      · exact absurd hrank ((pairwise_cons.mp hrest).1 a hmem).not_gt

/-- An event is not handed over a second time. -/
theorem send_not_mem_take (h : job.program[pc]? = some (.send i e)) :
    .send i e' ∉ job.program.take pc := by
  intro hmem
  have hprogram := mem_of_getElem? h
  have hrank := (mem_take_iff (events_ne_nil (event_of_mem hprogram (.inr rfl))) h
    (mem_of_mem_take hmem)).mp hmem
  simp only [rank] at hrank
  omega

/-- What comes before an instruction that is behind is behind. -/
theorem mem_take_of_rank_lt {a b : Instr} (h : job.events ≠ []) (hb : b ∈ job.program.take pc)
    (ha : a ∈ job.program) (hrank : job.rank a < job.rank b) : a ∈ job.program.take pc := by
  obtain ⟨k, hk, hget⟩ := mem_take_iff_getElem.mp hb
  have hb' : job.program[k]? = some b := by
    rw [getElem?_eq_getElem (lt_of_lt_of_le hk (min_le_right _ _)), hget]
  refine take_subset_take_left _ (hk.le.trans (min_le_left _ _)) ?_
  exact (mem_take_iff h hb' ha).mpr hrank

/-- The coalescer is started, and the event checked, before it is handed over. -/
theorem mem_take_of_send (h : .send i e ∈ job.program.take pc)
    (hinstr : instr = .start ∨ instr = .check i e) : instr ∈ job.program.take pc := by
  have hmem := mem_of_mem_take h
  have hevent := event_of_mem hmem (.inr rfl)
  have hcoal := coal_of_send hmem
  rcases hinstr with rfl | rfl
  · refine mem_take_of_rank_lt (events_ne_nil hevent) h ((mem_program_coal hcoal).mpr (.inl rfl)) ?_
    simp only [rank]
    split_ifs <;> omega
  · refine mem_take_of_rank_lt (events_ne_nil hevent) h
      ((mem_program_coal hcoal).mpr (.inr (.inl ⟨i, e, hevent, .inl rfl⟩))) ?_
    simp only [rank]
    omega

end Job

/-! ### What is behind a call -/

namespace Call

variable {call : Call} {instr : Instr}

/-- The instructions that are behind a call. -/
def done (call : Call) : List Instr := call.job.program.take call.pc

theorem instr?_eq_some (h : call.instr? = some instr) :
    call.result = none ∧ call.job.program[call.pc]? = some instr := by
  unfold instr? at h
  split_ifs at h with hresult
  exact ⟨by simpa using hresult, h⟩

theorem done_next (h : call.instr? = some instr) : call.next.done = call.done ++ [instr] := by
  have hget : call.next.job.program[call.pc]? = some instr := (instr?_eq_some h).2
  change call.next.job.program.take (call.pc + 1) = _
  rw [take_add_one, hget]
  rfl

/-- A call that has returned without an error has all its instructions behind it, unless it has
returned at once. -/
def Returned (call : Call) : Prop :=
  call.result = some none → call.job.atOnce = some none ∨ call.done = call.job.program

theorem mem_program_of_done (h : instr ∈ call.done) : instr ∈ call.job.program := mem_of_mem_take h

end Call

/-- The entry that an instruction hands over. -/
def Instr.handsOver (c : Nat) : Instr → List Entry
  | .send i e => [⟨c, i, e⟩]
  | _ => []

theorem Instr.mem_handsOver {c : Nat} {instr : Instr} {x : Entry} :
    x ∈ instr.handsOver c ↔ x.call = c ∧ instr = .send x.index x.input := by
  cases instr with
  | send i e =>
    rw [handsOver, mem_singleton]
    constructor
    · rintro rfl
      exact ⟨rfl, rfl⟩
    · rintro ⟨rfl, h⟩
      cases h
      rfl
  | check | start | await | write | mark | read | rollups | clear | unregister | halt | awaitExit
    | closeStore => simp [handsOver]

theorem encodeEvent_eq_ok {dims : Nat} {e : Input} {key : Key} {val : Stored}
    (h : encodeEvent dims e = .ok (key, val)) : key = e.event.key ∧ val = (e.nums, e.payload) := by
  unfold encodeEvent at h
  split at h
  · cases h
  next key' hkey =>
  split at h
  · cases h
  next val' hval =>
  cases h
  unfold encodeKey at hkey
  split_ifs at hkey
  cases hkey
  unfold encodeValue at hval
  split_ifs at hval with hcount hsize
  · split at hval <;> cases hval
  · split at hval
    · cases hval
    · cases hval
      exact ⟨rfl, rfl⟩

namespace WriteSite

variable {s s' : WriteSite} {a : SiteStep} {c c' : Nat} {call call' : Call} {instr : Instr}

/-- The instructions that are behind the calls. -/
def doneAt (s : WriteSite) (c : Nat) : List Instr := (s.calls[c]?.map done).getD []

theorem doneAt_congr (h : s'.calls = s.calls) : s'.doneAt = s.doneAt := by
  funext c
  rw [doneAt, doneAt, h]

theorem doneAt_of_call (hcall : s.calls[c]? = some call) : s.doneAt c = call.done := by
  rw [doneAt, hcall]
  rfl

theorem exists_call_of_done (h : instr ∈ s.doneAt c) :
    ∃ call, s.calls[c]? = some call ∧ instr ∈ call.done := by
  rcases hcall : s.calls[c]? with - | call
  · rw [doneAt, hcall] at h
    exact absurd h not_mem_nil
  · rw [doneAt_of_call hcall] at h
    exact ⟨call, rfl, h⟩

theorem doneAt_put (hcall : s.calls[c]? = some call) (call' : Call) :
    (s.put c call').doneAt = Function.update s.doneAt c call'.done := by
  funext c'
  rw [doneAt, calls_put hcall, update_apply]
  split_ifs
  · rfl
  · rfl

theorem doneAt_put_same (hcall : s.calls[c]? = some call) (hdone : call'.done = call.done) :
    (s.put c call').doneAt = s.doneAt := by
  rw [doneAt_put hcall, hdone, ← doneAt_of_call hcall, update_eq_self]

theorem doneAt_begin (s : WriteSite) (job : Job) :
    ({ s with calls := s.calls ++ [.begin job] } : WriteSite).doneAt = s.doneAt := by
  funext c
  unfold doneAt
  by_cases hlt : c < s.calls.length
  · rw [getElem?_append_left hlt]
  · rw [getElem?_append_right (not_lt.mp hlt), getElem?_eq_none (not_lt.mp hlt)]
    rcases c - s.calls.length with - | n
    · rfl
    · rfl

/-- A call has run an instruction, and what the instruction hands over is sent. -/
structure Ran (s s' : WriteSite) (c : Nat) (instr : Instr) : Prop where
  call : ∃ call : Call, s.calls[c]? = some call ∧ call.instr? = some instr
  done : s'.doneAt = Function.update s.doneAt c (s.doneAt c ++ [instr])
  sent : s'.sent = s.sent ++ instr.handsOver c

theorem ran_put {s₁ : WriteSite} (hcall : s.calls[c]? = some call)
    (hinstr : call.instr? = some instr) (hcalls : s₁.calls = s.calls)
    (hsent : s₁.sent = s.sent ++ instr.handsOver c) (hjob : call'.job = call.job)
    (hpc : call'.pc = call.pc + 1) : Ran s (s₁.put c call') c instr := by
  refine ⟨⟨call, hcall, hinstr⟩, ?_, hsent⟩
  have hdone : call'.done = call.done ++ [instr] := by
    rw [← done_next hinstr, done, done, hjob, hpc]
    rfl
  rw [doneAt_put (hcalls ▸ hcall), doneAt_congr hcalls, hdone, doneAt_of_call hcall]

/-- **What a step adds to what is behind the calls**: nothing, or the instruction of one call. -/
theorem Outcome.history (h : Outcome s a s') :
    s'.doneAt = s.doneAt ∧ s'.sent = s.sent ∨ ∃ c instr, Ran s s' c instr := by
  cases h with
  | begin job => exact .inl ⟨doneAt_begin s job, rfl⟩
  | fail err deleting hcall hinstr _ =>
    exact .inl ⟨doneAt_put_same (s := { s with deleting }) hcall rfl, rfl⟩
  | cancel hcall _ => exact .inl ⟨doneAt_put_same hcall rfl, rfl⟩
  | send hcall hinstr _ => exact .inr ⟨_, _, ran_put hcall hinstr rfl rfl rfl rfl⟩
  | other deleting stopping closed dims hcall hinstr _ _ hkind =>
    refine .inr ⟨_, _, ran_put hcall hinstr rfl ?_ rfl rfl⟩
    simp only [mem_cons, not_mem_nil, or_false] at hkind
    rcases hkind with (rfl | rfl | rfl) | ⟨id, rfl | rfl | rfl⟩ <;> exact (append_nil _).symm
  | check kv hcall hinstr _ | start hcall hinstr | await hcall hinstr _ | write hcall hinstr _
  | clear hcall hinstr _ =>
    exact .inr ⟨_, _, ran_put hcall hinstr rfl (append_nil _).symm rfl rfl⟩
  | unregister ok hcall hinstr =>
    cases ok with
    | true => exact .inr ⟨_, _, ran_put hcall hinstr rfl (append_nil _).symm rfl rfl⟩
    | false => exact .inl ⟨doneAt_put_same hcall rfl, rfl⟩
  | flush ok _ | exit ok _ _ => exact .inl ⟨doneAt_congr (flush_calls s ok), flush_sent s ok⟩
  | same | refuse | accept | stop => exact .inl ⟨rfl, rfl⟩

/-- What is behind a call stays there. -/
theorem Outcome.done_mono (h : Outcome s a s') (c : Nat) : s.doneAt c ⊆ s'.doneAt c := by
  rcases h.history with ⟨hdone, -⟩ | ⟨c', instr, -, hdone, -⟩
  · rw [hdone]
    exact fun _ => id
  · rw [hdone, update_apply]
    split_ifs with heq
    · rw [heq]
      exact fun _ hmem => mem_append_left _ hmem
    · exact fun _ => id

/-- An event that passes the checks fits its timeline. -/
theorem check_eq_ok {e : Input} {dims : Nat} (h : s.check e = .ok dims) :
    s.store.registry e.event.timeline = some e.event.dims.length := by
  unfold check at h
  split at h
  · cases h
  split at h
  · cases h
  next dims' hget =>
  split_ifs at h with hdims
  unfold get at hget
  split_ifs at hget
  rw [hget, not_not.mp hdims]

theorem examine_eq_ok {job : Job} {e : Input} {kv : Option (Key × Stored)}
    (h : s.examine job e = .ok kv) : s.store.registry e.event.timeline = some e.event.dims.length ∧
      (job.encodes = true → kv.isSome) ∧
      ∀ key val, kv = some (key, val) → key = e.event.key ∧ val = (e.nums, e.payload) := by
  unfold examine at h
  split at h
  · cases h
  next dims hcheck =>
  refine ⟨check_eq_ok hcheck, ?_⟩
  split_ifs at h with hencodes
  · split at h
    · cases h
    next kv hencode =>
    cases h
    refine ⟨fun _ => rfl, ?_⟩
    rintro key val heq
    cases heq
    exact encodeEvent_eq_ok hencode
  · cases h
    exact ⟨fun henc => absurd henc hencodes, fun key val heq => by cases heq⟩

/-- What an instruction that succeeds has found and done: `prepared` and `dims` are what its call
holds afterwards. -/
structure Effect (s : WriteSite) (a : SiteStep) (s' : WriteSite) (c : Nat) (call : Call)
    (instr : Instr) (prepared : List Pending) (dims : Nat) : Prop where
  turn : ∃ ok, a = .advance c ok
  check : ∀ i e, instr = .check i e → ∃ kv, s.examine call.job e = .ok kv ∧
    prepared = call.prepared ++
      if call.job.coal then [] else (kv.map fun kv => ⟨⟨c, i, e⟩, kv.1, kv.2⟩).toList
  keep : (∀ i e, instr ≠ .check i e) → prepared = call.prepared
  await : ∀ i, instr = .await i → s.reply? c i = some none
  write : instr = .write → s'.written = s.written ++ call.prepared
  read : ∀ id, instr = .read id → s.store.registry id = some dims
  dims : (∀ id, instr ≠ .read id) → dims = call.dims
  clear : ∀ id, instr = .clear id → (∀ ok, a = .advance c ok → s.commits ok) ∧
    s'.store = s.store.deleteDataRange id call.dims
  unregister : ∀ id, instr = .unregister id → s'.store = s.store.undefine id
  start : instr = .start → s'.coalescer ≠ .idle

/-- What a step does to a call: nothing, it returns an error, or its instruction is behind it. -/
inductive CallStep (s : WriteSite) (a : SiteStep) (s' : WriteSite) (c : Nat) (call : Call) :
    Call → Prop where
  | same : CallStep s a s' c call call
  | fail {instr : Instr} (err : WriteError) (hinstr : call.instr? = some instr)
      (hturn : (∃ ok, a = .advance c ok) ∨ a = .cancel c ∧ err = .cancelled)
      (hinvalid : call.job.isBatch → err.isInvalid → s.Refuses c call instr err) :
      CallStep s a s' c call (call.fail err)
  | next {instr : Instr} (prepared : List Pending) (dims : Nat) (hinstr : call.instr? = some instr)
      (heffect : Effect s a s' c call instr prepared dims) :
      CallStep s a s' c call { call.next with prepared, dims }

theorem CallStep.job_eq (h : CallStep s a s' c call call') : call'.job = call.job := by
  cases h <;> rfl

theorem CallStep.returned (h : CallStep s a s' c call call') (hcall : call.Returned) :
    call'.Returned := by
  cases h with
  | same => exact hcall
  | fail err _ _ _ =>
    intro hresult
    cases hresult
  | next prepared dims hinstr heffect =>
    intro hresult
    change (if call.pc + 1 = call.job.program.length then some none else none) = some none
      at hresult
    split_ifs at hresult with hlast
    right
    change call.job.program.take (call.pc + 1) = call.job.program
    rw [hlast, take_length]

section

variable (h : Outcome s a s')

include h

/-- **What a step does to the calls.** -/
theorem Outcome.calls_spec : (∃ job, s'.calls = s.calls ++ [.begin job]) ∨ s'.calls = s.calls ∨
      ∃ c call call', s.calls[c]? = some call ∧ CallStep s a s' c call call' ∧
        s'.calls = s.calls.set c call' := by
  cases h with
  | begin job => exact .inl ⟨job, rfl⟩
  | fail err deleting hcall hinstr hinvalid =>
    exact .inr (.inr ⟨_, _, _, hcall, .fail err hinstr (.inl ⟨_, rfl⟩) hinvalid, rfl⟩)
  | cancel hcall hinstr =>
    exact .inr (.inr ⟨_, _, _, hcall, .fail .cancelled hinstr (.inr ⟨rfl, rfl⟩)
      (fun _ h => by cases h), rfl⟩)
  | check kv hcall hinstr hexamine =>
    refine .inr (.inr ⟨_, _, _, hcall, .next _ _ hinstr ⟨⟨_, rfl⟩, ?_, ?_, ?_, ?_, ?_,
      fun _ => rfl, ?_, ?_, ?_⟩, rfl⟩)
    · rintro i e heq
      cases heq
      exact ⟨kv, hexamine, rfl⟩
    · exact fun hne => absurd rfl (hne _ _)
    all_goals simp
  | start hcall hinstr =>
    refine .inr (.inr ⟨_, _, _, hcall, .next _ _ hinstr ?_, rfl⟩)
    constructor
    case start =>
      change _ → (if s.coalescer = .idle then Coalescer.running else s.coalescer) ≠ .idle
      split_ifs with hidle
      · simp
      · exact fun _ => hidle
    all_goals simp
  | send hcall hinstr _ =>
    refine .inr (.inr ⟨_, _, _, hcall, .next _ _ hinstr ?_, rfl⟩)
    constructor <;> simp
  | await hcall hinstr hreply =>
    refine .inr (.inr ⟨_, _, _, hcall, .next _ _ hinstr ?_, rfl⟩)
    constructor
    case await => simpa using hreply
    all_goals simp
  | write hcall hinstr _ =>
    refine .inr (.inr ⟨_, _, _, hcall, .next _ _ hinstr ?_, rfl⟩)
    constructor
    case write => exact fun _ => rfl
    all_goals simp
  | other deleting stopping closed dims hcall hinstr hread hkeep hkind =>
    refine .inr (.inr ⟨_, _, _, hcall, .next _ dims hinstr ⟨⟨_, rfl⟩, ?_, fun _ => rfl, ?_, ?_,
      hread, hkeep, ?_, ?_, ?_⟩, rfl⟩)
    -- the instruction is none of those
    all_goals
      intros
      subst_vars
      simp at hkind
  | clear hcall hinstr hcommits =>
    refine .inr (.inr ⟨_, _, _, hcall, .next _ _ hinstr ?_, rfl⟩)
    constructor
    case clear =>
      rintro id heq
      cases heq
      refine ⟨?_, rfl⟩
      rintro ok heq
      cases heq
      exact hcommits
    all_goals simp
  | unregister ok hcall hinstr =>
    cases ok with
    | true =>
      refine .inr (.inr ⟨_, _, _, hcall, .next _ _ hinstr ?_, rfl⟩)
      constructor
      case unregister =>
        rintro id heq
        cases heq
        rfl
      all_goals simp
    | false =>
      exact .inr (.inr ⟨_, _, _, hcall, .fail .pebble hinstr (.inl ⟨_, rfl⟩)
        (fun _ h => by cases h), rfl⟩)
  | flush ok _ | exit ok _ _ => exact .inr (.inl (flush_calls s ok))
  | same | refuse | accept | stop => exact .inr (.inl rfl)

/-- What a step does to the call with a number. -/
theorem Outcome.call_spec (c : Nat) :
    (s.calls[c]? = none ∧ ∀ call', s'.calls[c]? = some call' → ∃ job, call' = .begin job) ∨
      ∃ call call', s.calls[c]? = some call ∧ s'.calls[c]? = some call' ∧
        CallStep s a s' c call call' := by
  by_cases hsame : s'.calls[c]? = s.calls[c]?
  · rw [hsame]
    rcases s.calls[c]? with - | call
    · exact .inl ⟨rfl, fun _ h => nomatch h⟩
    · exact .inr ⟨call, call, rfl, rfl, .same⟩
  rcases h.calls_spec with ⟨job, hcalls⟩ | hcalls | ⟨c₁, call₁, call₁', hcall₁, hstep, hcalls⟩
  · have hge : s.calls.length ≤ c := by
      refine not_lt.mp fun hlt => hsame ?_
      rw [hcalls, getElem?_append_left hlt]
    refine .inl ⟨getElem?_eq_none hge, fun call' hcall' => ⟨job, ?_⟩⟩
    rw [hcalls, getElem?_append_right hge, getElem?_singleton] at hcall'
    split_ifs at hcall'
    exact (Option.some.inj hcall').symm
  · exact absurd (congrArg (·[c]?) hcalls) hsame
  · have hput := calls_put hcall₁ call₁' c
    rw [put, ← hcalls] at hput
    split_ifs at hput with heq
    · subst heq
      exact .inr ⟨call₁, call₁', hcall₁, hput, hstep⟩
    · exact absurd hput hsame

/-- Where a call comes from. -/
theorem Outcome.call_cases (hcall' : s'.calls[c]? = some call') :
    (s.calls[c]? = none ∧ ∃ job, call' = .begin job) ∨
      ∃ call, s.calls[c]? = some call ∧ CallStep s a s' c call call' := by
  rcases h.call_spec c with ⟨hnone, hbegin⟩ | ⟨call, call₁, hcall, hcall₁, hstep⟩
  · exact .inl ⟨hnone, hbegin call' hcall'⟩
  · cases hcall'.symm.trans hcall₁
    exact .inr ⟨call, hcall, hstep⟩

/-- Where a prepared event comes from: it was there, or a call that writes by itself has just
checked and encoded it. -/
theorem Outcome.prepared_cases (hcall' : s'.calls[c]? = some call')
    {p : Pending} (hp : p ∈ call'.prepared) :
    (∃ call, s.calls[c]? = some call ∧ call'.job = call.job ∧ p ∈ call.prepared) ∨
      p.entry.call = c ∧ call'.job.coal = false ∧
        s.store.registry p.entry.input.event.timeline = some p.entry.input.event.dims.length ∧
        p = ⟨p.entry, p.entry.input.event.key, p.entry.input.nums, p.entry.input.payload⟩ := by
  rcases h.call_cases hcall' with ⟨-, job, rfl⟩ | ⟨call, hcall, hstep⟩
  · exact absurd hp not_mem_nil
  cases hstep with
  | same => exact .inl ⟨call', hcall, rfl, hp⟩
  | fail => exact .inl ⟨call, hcall, rfl, hp⟩
  | @next instr prepared dims hinstr heffect =>
    by_cases hcheck : ∃ i e, instr = .check i e
    · obtain ⟨i, e, rfl⟩ := hcheck
      obtain ⟨kv, hexamine, rfl⟩ := heffect.check i e rfl
      obtain ⟨hreg, -, hkv⟩ := examine_eq_ok hexamine
      rcases mem_append.mp hp with hp | hp
      · exact .inl ⟨call, hcall, rfl, hp⟩
      · split_ifs at hp with hcoal
        · exact absurd hp not_mem_nil
        · obtain ⟨⟨key, val⟩, heq, rfl⟩ := Option.map_eq_some_iff.mp (Option.mem_toList.mp hp)
          obtain ⟨rfl, rfl⟩ := hkv key val heq
          exact .inr ⟨rfl, Bool.not_eq_true _ ▸ hcoal, hreg, rfl⟩
    · obtain rfl := heffect.keep fun i e heq => hcheck ⟨i, e, heq⟩
      exact .inl ⟨call, hcall, rfl, hp⟩

/-- Where an event in the buffer comes from. -/
theorem Outcome.buf_cases {p : Pending} (hp : p ∈ s'.buf) : p ∈ s.buf ∨ p.entry ∈ s.queue ∧
      p = ⟨p.entry, p.entry.input.event.key, p.entry.input.nums, p.entry.input.payload⟩ := by
  cases h with
  | @accept x queue key val hqueue _ hencode =>
    rcases mem_append.mp hp with hp | hp
    · exact .inl hp
    · obtain rfl := mem_singleton.mp hp
      obtain ⟨dims, hencode, -⟩ := encodeEntry_eq_ok hencode
      obtain ⟨rfl, rfl⟩ := encodeEvent_eq_ok hencode
      exact .inr ⟨hqueue ▸ mem_cons_self, rfl⟩
  | flush | exit => exact absurd hp not_mem_nil
  | same | begin | fail | cancel | check | start | send | await | write | other | clear | unregister
    | refuse | stop => exact .inl hp

/-- Where a call goes; its job stays. -/
theorem Outcome.call_next (hcall : s.calls[c]? = some call) :
    ∃ call', s'.calls[c]? = some call' ∧ CallStep s a s' c call call' := by
  rcases h.call_spec c with ⟨hnone, -⟩ | ⟨call₁, call', hcall₁, hcall', hstep⟩
  · cases hcall.symm.trans hnone
  · cases hcall.symm.trans hcall₁
    exact ⟨call', hcall', hstep⟩

/-- **What a step writes and answers.** -/
theorem Outcome.written_spec : s'.written = s.written ∧ s'.replies = s.replies ∨
      (∃ (c : Nat) (call : Call), s.calls[c]? = some call ∧ .write ∈ s'.doneAt c ∧
        s'.written = s.written ++ call.prepared ∧ s'.replies = s.replies) ∨
      (∃ x queue err, a = .receive ∧ s.queue = x :: queue ∧ s.encodeEntry x = .error err ∧
        s'.written = s.written ∧ s'.replies = s.replies ++ [(x, some err)]) ∨
      ∃ ok, s'.written = s.written ++ (if s.commits ok then s.buf else []) ∧
        s'.replies = s.replies ++ s.buf.map fun p => (p.entry, s.outcome ok) := by
  cases h with
  | write hcall hinstr _ =>
    refine .inr (.inl ⟨_, _, hcall, ?_, rfl, rfl⟩)
    rw [doneAt_put (s := s.commit _) hcall, update_self, done_next hinstr]
    exact mem_append_right _ mem_cons_self
  | refuse err hqueue _ hrefuse =>
    exact .inr (.inr (.inl ⟨_, _, err, rfl, hqueue, hrefuse, rfl, rfl⟩))
  | flush ok _ | exit ok _ _ =>
    exact .inr (.inr (.inr ⟨ok, flush_written s ok, flush_replies s ok⟩))
  | same | begin | fail | cancel | check | start | send | await | other | clear | unregister
    | accept | stop => exact .inl ⟨rfl, rfl⟩

end

theorem mem_replies_of_reply? {c i : Nat} {r : Option WriteError} (h : s.reply? c i = some r) :
    ∃ x, x.call = c ∧ x.index = i ∧ (x, r) ∈ s.replies := by
  obtain ⟨⟨x, r'⟩, hfind, rfl⟩ := Option.map_eq_some_iff.mp h
  have hkey := find?_some hfind
  rw [decide_eq_true_eq] at hkey
  exact ⟨x, hkey.1, hkey.2, mem_of_find?_eq_some hfind⟩

theorem Outcome.mono (h : Outcome s a s') : s.replies ⊆ s'.replies ∧ s.written ⊆ s'.written := by
  rcases h.written_spec with ⟨hwritten, hreplies⟩ | ⟨_, _, -, -, hwritten, hreplies⟩ |
    ⟨_, _, _, -, -, -, hwritten, hreplies⟩ | ⟨_, hwritten, hreplies⟩
  all_goals
    rw [hwritten, hreplies]
    simp

/-! ### The accounts of the coalescer -/

/-- **The accounts**: what was handed over is in the channel, in the batch or answered, each entry
once; an answer is without an error if and only if the entry was written. -/
structure Accounts (s : WriteSite) : Prop where
  sent_iff : ∀ x, x ∈ s.sent ↔ .send x.index x.input ∈ s.doneAt x.call
  nodup : s.sent.Nodup
  perm : (s.queue ++ (s.buf.map entry ++ s.replies.map Prod.fst)).Perm s.sent
  prepared : ∀ (c : Nat) (call : Call), s.calls[c]? = some call → ∀ p ∈ call.prepared,
    p.entry.call = c ∧ call.job.coal = false
  origin : ∀ p ∈ s.written, p.entry ∈ s.replies.map Prod.fst ∨ .write ∈ s.doneAt p.entry.call
  nil_iff : ∀ r ∈ s.replies, r.2 = none ↔ ∃ p ∈ s.written, p.entry = r.1

namespace Accounts

variable {x : Entry}

theorem opened (store : PebbleStore Stored) (coalescing : Bool) :
    Accounts (opened store coalescing) where
  sent_iff x := by simp [WriteSite.opened, doneAt]
  nodup := .nil
  perm := .nil
  prepared c call hcall := by simp [WriteSite.opened] at hcall
  origin p hp := absurd hp not_mem_nil
  nil_iff r hr := absurd hr not_mem_nil

section

variable (h : Accounts s)

include h

theorem sent_of_replied (hx : x ∈ s.replies.map Prod.fst) : x ∈ s.sent :=
  h.perm.subset (mem_append_right _ (mem_append_right _ hx))

/-- An entry is of a call in coalescing mode. -/
theorem coal_of_sent (hx : x ∈ s.sent) :
    ∃ call : Call, s.calls[x.call]? = some call ∧ call.job.coal = true := by
  obtain ⟨call, hcall, hdone⟩ := exists_call_of_done ((h.sent_iff x).mp hx)
  exact ⟨call, hcall, Job.coal_of_send (mem_program_of_done hdone)⟩

theorem index_lt (hx : x ∈ s.sent) (hcall : s.calls[x.call]? = some call) :
    x.index < call.job.events.length := by
  have hdone := (h.sent_iff x).mp hx
  rw [doneAt_of_call hcall] at hdone
  exact (List.getElem?_eq_some_iff.mp (Job.event_of_mem (mem_program_of_done hdone) (.inr rfl))).1

/-- Entries with one call and one index are the same. -/
theorem eq_of_sent {x y : Entry} (hx : x ∈ s.sent) (hy : y ∈ s.sent)
    (hcall : x.call = y.call) (hindex : x.index = y.index) : x = y := by
  obtain ⟨call, hcall₁, hdone₁⟩ := exists_call_of_done ((h.sent_iff x).mp hx)
  obtain ⟨call₂, hcall₂, hdone₂⟩ := exists_call_of_done ((h.sent_iff y).mp hy)
  rw [hcall, hcall₂, Option.some.injEq] at hcall₁
  subst hcall₁
  have hevent₁ := Job.event_of_mem (mem_program_of_done hdone₁) (.inr rfl)
  have hevent₂ := Job.event_of_mem (mem_program_of_done hdone₂) (.inr rfl)
  cases x
  cases y
  simp_all

/-- What is not answered is not written. -/
theorem not_written (hx : x ∈ s.queue ++ s.buf.map entry) : ∀ p ∈ s.written, p.entry ≠ x := by
  rintro p hp rfl
  have hperm := h.perm
  rw [← append_assoc] at hperm
  have hsent : p.entry ∈ s.sent := hperm.subset (mem_append_left _ hx)
  rcases h.origin p hp with hreplied | hwrite
  · have hnodup := hperm.nodup_iff.mpr h.nodup
    exact (nodup_append.mp hnodup).2.2 _ hx _ hreplied rfl
  · obtain ⟨call, hcall, hcoal⟩ := h.coal_of_sent hsent
    rw [doneAt_of_call hcall] at hwrite
    rw [Job.not_coal_of_write (mem_program_of_done hwrite)] at hcoal
    cases hcoal

section

variable (ho : Outcome s a s')

include ho

theorem sent_step :
    (∀ x, x ∈ s'.sent ↔ .send x.index x.input ∈ s'.doneAt x.call) ∧ s'.sent.Nodup := by
  rcases ho.history with ⟨hdone, hsent⟩ | ⟨c, instr, ⟨call, hcall, hinstr⟩, hdone, hsent⟩
  · rw [hdone, hsent]
    exact ⟨h.sent_iff, h.nodup⟩
  · rw [hdone, hsent]
    have hprogram := (instr?_eq_some hinstr).2
    refine ⟨fun x => ?_, nodup_append.mpr ⟨h.nodup, ?_, ?_⟩⟩
    · rw [mem_append, h.sent_iff, mem_handsOver, update_apply]
      split_ifs with heq
      · rw [heq, mem_append, mem_singleton, and_iff_right rfl, eq_comm (a := instr)]
      · simp [heq]
    · cases instr <;> simp [handsOver]
    · -- what is handed over now was not handed over before
      rintro x hx y hy rfl
      obtain ⟨rfl, rfl⟩ := mem_handsOver.mp hy
      rw [h.sent_iff, doneAt_of_call hcall] at hx
      exact Job.send_not_mem_take hprogram hx

theorem perm_step : (s'.queue ++ (s'.buf.map entry ++ s'.replies.map Prod.fst)).Perm s'.sent := by
  have hflush : ∀ ok, (s.queue ++ (s.replies ++ s.buf.map fun p =>
      (p.entry, s.outcome ok)).map Prod.fst).Perm s.sent := by
    intro ok
    rw [map_append, map_map]
    exact (perm_append_comm.append_left _).trans h.perm
  cases ho with
  | send hcall hinstr hroom =>
    -- the entry is the last one of the channel
    refine .trans ?_ (h.perm.append_right _)
    change ((s.queue ++ [_]) ++ _).Perm _
    rw [append_assoc, append_assoc]
    exact perm_append_comm.append_left _
  | @refuse x queue err hqueue _ _ =>
    have hperm := h.perm
    rw [hqueue] at hperm
    refine .trans ?_ hperm
    change (queue ++ (s.buf.map entry ++ (s.replies ++ [(x, some err)]).map Prod.fst)).Perm _
    rw [map_append, ← append_assoc, ← append_assoc]
    refine (perm_append_singleton x _).trans ?_
    rw [append_assoc]
    rfl
  | @accept x queue key val hqueue _ _ =>
    have hperm := h.perm
    rw [hqueue] at hperm
    refine .trans ?_ hperm
    rw [map_append, append_assoc, ← append_assoc]
    refine perm_middle.trans ?_
    rw [append_assoc]
    rfl
  | flush ok _ | exit ok _ _ =>
    simp only [flush_queue, flush_buf, flush_replies, flush_sent]
    exact hflush ok
  | same | begin | fail | cancel | check | start | await | write | other | clear | unregister
    | stop => exact h.perm

theorem prepared_step (hcall' : s'.calls[c]? = some call') :
    ∀ p ∈ call'.prepared, p.entry.call = c ∧ call'.job.coal = false := by
  intro p hp
  rcases ho.prepared_cases hcall' hp with ⟨call, hcall, hjob, hp⟩ | ⟨hc, hcoal, -, -⟩
  · rw [hjob]
    exact h.prepared c call hcall p hp
  · exact ⟨hc, hcoal⟩

theorem origin_step :
    ∀ p ∈ s'.written, p.entry ∈ s'.replies.map Prod.fst ∨ .write ∈ s'.doneAt p.entry.call := by
  have hold : ∀ p ∈ s.written,
      p.entry ∈ s'.replies.map Prod.fst ∨ .write ∈ s'.doneAt p.entry.call := fun p hp =>
    (h.origin p hp).imp (map_subset _ ho.mono.1 ·) fun hdone => ho.done_mono _ hdone
  intro p hp
  rcases ho.written_spec with ⟨hwritten, -⟩ | ⟨c, call, hcall, hdone, hwritten, -⟩ |
    ⟨x, _, err, -, -, -, hwritten, -⟩ | ⟨ok, hwritten, hreplies⟩
  · exact hold p (hwritten ▸ hp)
  · rw [hwritten] at hp
    rcases mem_append.mp hp with hp | hp
    · exact hold p hp
    · obtain ⟨rfl, -⟩ := h.prepared c call hcall p hp
      exact .inr hdone
  · exact hold p (hwritten ▸ hp)
  · rw [hwritten] at hp
    rcases mem_append.mp hp with hp | hp
    · exact hold p hp
    · -- the batch is answered in the same step
      split_ifs at hp with hcommits
      · refine .inl ?_
        rw [hreplies, map_append, map_map]
        exact mem_append_right _ (mem_map.mpr ⟨p, hp, rfl⟩)
      · exact absurd hp not_mem_nil

theorem nil_iff_step : ∀ r ∈ s'.replies, r.2 = none ↔ ∃ p ∈ s'.written, p.entry = r.1 := by
  -- what is written now was not answered before
  have hkeep : ∀ new : List Pending, (∀ p ∈ new, p.entry ∉ s.replies.map Prod.fst) →
      ∀ r ∈ s.replies, r.2 = none ↔ ∃ p ∈ s.written ++ new, p.entry = r.1 := by
    intro new hnew r hr
    rw [h.nil_iff r hr]
    constructor
    · rintro ⟨p, hp, heq⟩
      exact ⟨p, mem_append_left _ hp, heq⟩
    · rintro ⟨p, hp, heq⟩
      rcases mem_append.mp hp with hp | hp
      · exact ⟨p, hp, heq⟩
      · exact absurd (mem_map.mpr ⟨r, hr, heq.symm⟩) (hnew p hp)
  have hnodup := h.perm.nodup_iff.mpr h.nodup
  rcases ho.written_spec with ⟨hwritten, hreplies⟩ | ⟨c, call, hcall, -, hwritten, hreplies⟩ |
    ⟨x, _, err, -, hqueue, -, hwritten, hreplies⟩ | ⟨ok, hwritten, hreplies⟩
  · rw [hwritten, hreplies]
    exact h.nil_iff
  · -- a direct write is of another call
    rw [hwritten, hreplies]
    refine hkeep _ fun p hp hreplied => ?_
    obtain ⟨hc, hdirect⟩ := h.prepared c call hcall p hp
    obtain ⟨call', hcall', hcoal⟩ := h.coal_of_sent (h.sent_of_replied hreplied)
    rw [hc, hcall, Option.some.injEq] at hcall'
    rw [hcall', hcoal] at hdirect
    cases hdirect
  · rw [hwritten, hreplies]
    intro r hr
    rcases mem_append.mp hr with hr | hr
    · exact h.nil_iff r hr
    · obtain rfl := mem_singleton.mp hr
      refine iff_of_false (by simp) ?_
      rintro ⟨p, hp, heq⟩
      have hx : x ∈ s.queue := hqueue ▸ mem_cons_self
      exact h.not_written (mem_append_left _ hx) p hp heq
  · rw [hwritten, hreplies]
    intro r hr
    rcases mem_append.mp hr with hr | hr
    · refine hkeep _ (fun p hp hreplied => ?_) r hr
      split_ifs at hp
      · have hdisjoint := (nodup_append.mp (nodup_append.mp hnodup).2.1).2.2
        exact hdisjoint _ (mem_map.mpr ⟨p, hp, rfl⟩) _ hreplied rfl
      · exact absurd hp not_mem_nil
    · obtain ⟨p, hp, rfl⟩ := mem_map.mp hr
      unfold outcome
      split_ifs with hcommits
      · exact iff_of_true rfl ⟨p, mem_append_right _ hp, rfl⟩
      · refine iff_of_false (by simp) ?_
        rintro ⟨p', hp', heq⟩
        rw [append_nil] at hp'
        exact h.not_written (mem_append_right _ (mem_map.mpr ⟨p, hp, rfl⟩)) p' hp' heq

end

/-- **The accounts are kept by every step.** -/
theorem step (a : SiteStep) : Accounts (s.step a) := by
  have ho := step_outcome s a
  obtain ⟨hsent, hnodup⟩ := h.sent_step ho
  exact ⟨hsent, hnodup, h.perm_step ho, fun c call => h.prepared_step ho, h.origin_step ho,
    h.nil_iff_step ho⟩

end

end Accounts

/-- **No entry is lost or answered twice**, in any interleaving. -/
theorem accounts_run (store : PebbleStore Stored) (coalescing : Bool) (steps : List SiteStep) :
    Accounts (Runs.run step (opened store coalescing) steps) :=
  Runs.invariant_run (fun _ a h => h.step a) (.opened store coalescing) steps

end WriteSite

end Xolu.Timeseries
