/-
# Deleting a timeline that is written (pkg/timeseries)

`DeleteTimeline` marks the timeline, deletes the range of its keys and unregisters it.  A writer
looks the timeline up, which fails once it is marked, and writes later; nothing keeps the range from
being deleted in between, and then the event stays in the store without a timeline.

In every run in which no event is committed to a timeline after its range was deleted, and in which
the range of the last timeline, for which there is no upper bound, is deleted only when it is empty,
a deleted timeline leaves nothing behind (`leavesNothing_run`).
-/
import Xolu.Timeseries.Replies

namespace Xolu.Timeseries

open List BigEndian Call Runs

/-- A key of the timeline. -/
def OfTimeline (id : UInt32) (key : Key) : Prop := key.take 4 = encode 4 id.toNat
deriving Decidable

theorem ofTimeline_key {id : UInt32} {e : Event} : OfTimeline id e.key ↔ e.timeline = id := by
  rw [OfTimeline, take_key, encode_timeline_inj]

namespace WriteSite

variable {s s' : WriteSite} {a : SiteStep} {c : Nat} {call call' : Call} {id : UInt32}

/-- The range of the timeline was deleted: it is not defined, or a deletion of it is about to
unregister it. -/
def cleared (s : WriteSite) (id : UInt32) : Bool :=
  (s.store.registry id).isNone || s.calls.any fun call => call.instr? = some (.unregister id)

/-- An event is committed to a timeline whose range was deleted, or the range of the last timeline,
which has no end, is to be deleted and is not empty. -/
def strands (s : WriteSite) : SiteStep → Bool
  | .advance c ok =>
    match s.calls[c]? with
    | none => false
    | some call =>
      match call.instr? with
      | some .write =>
        s.commits ok && call.prepared.any fun p => s.cleared p.entry.input.event.timeline
      | some (.clear id) =>
        s.commits ok && id.toNat = 4294967295 && s.store.db.keys.any fun key => OfTimeline id key
      | _ => false
  | .flush ok =>
    s.coalescer = .running && s.commits ok &&
      s.buf.any fun p => s.cleared p.entry.input.event.timeline
  | .exit ok =>
    s.coalescer = .draining && s.queue = [] && s.commits ok &&
      s.buf.any fun p => s.cleared p.entry.input.event.timeline
  | _ => false

/-- **Nothing is left behind**: once a timeline is deleted and every writer has returned there is no
key of it. -/
def LeavesNothing (s : WriteSite) : Prop :=
  ∀ (id : UInt32) (c : Nat) (call : Call), s.calls[c]? = some call →
    call.job = .deleteTimeline id → call.result = some none →
    (∀ (c' : Nat) (call' : Call), s.calls[c']? = some call' → call'.job.isWriter →
      call'.result.isSome) →
    ∀ key ∈ s.store.db.keys, ¬ OfTimeline id key

/-! ### What a step does to the store -/

theorem foldl_setPending_registry (store : PebbleStore Stored) (batch : List Pending) :
    (batch.foldl setPending store).registry = store.registry :=
  foldlRecOn (motive := fun st : PebbleStore Stored => st.registry = store.registry) batch _ rfl
    fun _ h _ _ => h

variable {store : PebbleStore Stored} {key : Key}

theorem mem_keys_foldl_setPending {batch : List Pending}
    (h : key ∈ (batch.foldl setPending store).db.keys) :
    key ∈ store.db.keys ∨ ∃ p ∈ batch, key = p.key := by
  induction batch generalizing store with
  | nil => exact .inl h
  | cons p batch ih =>
    rcases ih h with hmem | ⟨p', hp', rfl⟩
    · rcases SortedMap.mem_keys_set.mp hmem with rfl | ⟨hmem, -⟩
      · exact .inr ⟨p, mem_cons_self, rfl⟩
      · exact .inl hmem
    · exact .inr ⟨p', mem_cons_of_mem _ hp', rfl⟩

/-- Without an upper bound the range is that of the last timeline. -/
theorem stop_eq_none_iff (id : UInt32) (dims : Nat) :
    increment (encodePrefixKey id (fillDims dims maxDim)) = none ↔ id.toNat = 4294967295 := by
  rw [increment_eq_none_iff, encodePrefixKey, forall_mem_append,
    forall_mem_dimBytes_iff (v := maxDim) (by decide),
    forall_mem_encode_iff (n := 4) (w := 4294967295) (by decide) id.toNat_lt (by decide)]
  exact and_iff_left fun d hd => eq_of_mem_replicate hd

/-- **The range of a timeline** that is not the last one is that of its keys. -/
theorem not_ofTimeline_of_mem {dims : Nat}
    (hlast : id.toNat ≠ 4294967295) (hlength : tsOffset dims ≤ key.length)
    (h : key ∈ (store.deleteDataRange id dims).db.keys) : ¬ OfTimeline id key := by
  intro hkey
  obtain ⟨-, hout⟩ := SortedMap.mem_keys_deleteRange.mp h
  obtain ⟨hlow, hhigh⟩ := (PebbleStore.inBounds_iff hlength).mpr hkey
  obtain ⟨u, hu⟩ := Option.ne_none_iff_exists'.mp (mt (stop_eq_none_iff id dims).mp hlast)
  rcases hout with hout | hout
  · exact hlow hout
  · change (increment (encodePrefixKey id (fillDims dims maxDim))).all _ at hhigh
    rw [hu, Option.all_some] at hhigh
    rw [hu, Option.any_some] at hout
    exact hout hhigh

theorem keys_deleteDataRange {dims : Nat} :
    (store.deleteDataRange id dims).db.keys ⊆ store.db.keys := fun _ h =>
  (SortedMap.mem_keys_deleteRange.mp h).1

/-- A timeline is no longer defined only after its range was deleted. -/
theorem Outcome.registry_spec (h : Outcome s a s') (id : UInt32) :
    s'.store.registry id = s.store.registry id ∨
      s'.store.registry id = none ∧ s.cleared id = true := by
  cases h with
  | write _ _ _ => exact .inl (congrFun (foldl_setPending_registry _ _) id)
  | @unregister c call id' ok hcall hinstr =>
    by_cases heq : id = id'
    · subst heq
      refine .inr ⟨Function.update_self _ _ _, ?_⟩
      rw [cleared, Bool.or_eq_true]
      exact .inr (any_eq_true.mpr ⟨call, mem_of_getElem? hcall, decide_eq_true hinstr⟩)
    · exact .inl (Function.update_of_ne heq _ _)
  | flush ok _ | exit ok _ _ =>
    simp only [flush_store]
    split_ifs
    · exact .inl (congrFun (foldl_setPending_registry _ _) id)
    · exact .inl rfl
  | same | begin | fail | cancel | check | start | send | await | other | clear | refuse | accept
    | stop => exact .inl rfl

/-- **Where the keys come from**: they were there, or a batch is committed. -/
theorem Outcome.keys_spec (h : Outcome s a s') (hkey : key ∈ s'.store.db.keys) :
    key ∈ s.store.db.keys ∨
      ∃ p : Pending, key = p.key ∧ (p ∈ s.buf ∨ ∃ (c : Nat) (call : Call),
        s.calls[c]? = some call ∧ p ∈ call.prepared) ∧
        (s.strands a = false → s.cleared p.entry.input.event.timeline = false) := by
  cases h with
  | @write c ok call hcall hinstr hcommits =>
    rcases mem_keys_foldl_setPending hkey with hkey | ⟨p, hp, rfl⟩
    · exact .inl hkey
    · refine .inr ⟨p, rfl, .inr ⟨c, call, hcall, hp⟩, fun hcond => ?_⟩
      simp only [strands, hcall, hinstr, hcommits, Bool.true_and, any_eq_false] at hcond
      exact Bool.eq_false_iff.mpr (hcond p hp)
  | clear _ _ _ => exact .inl (keys_deleteDataRange hkey)
  | flush ok hrunning | exit ok hdraining hqueue =>
    simp only [flush_store] at hkey
    split_ifs at hkey with hcommits
    · rcases mem_keys_foldl_setPending hkey with hkey | ⟨p, hp, rfl⟩
      · exact .inl hkey
      · refine .inr ⟨p, rfl, .inl hp, fun hcond => ?_⟩
        simp only [strands, *, decide_true, Bool.true_and, any_eq_false] at hcond
        exact Bool.eq_false_iff.mpr (hcond p hp)
    · exact .inl hkey
  | same | begin | fail | cancel | check | start | send | await | other | unregister | refuse
    | accept | stop => exact .inl hkey

/-! ### What a run keeps -/

/-- The event has the dimensions of its timeline. -/
def Fits (registry : UInt32 → Option Nat) (e : Event) : Prop :=
  registry e.timeline = some e.dims.length

/-- **The invariant**, for the timelines that were defined at the start: what is stored or on its
way has a key of such a timeline, deletions go on from one instruction to the next, and a timeline
whose range was deleted has no keys. -/
structure Tidy (registry : UInt32 → Option Nat) (s : WriteSite) : Prop where
  accounts : Accounts s
  defined : ∀ id, s.store.registry id = registry id ∨ s.store.registry id = none
  checked : ∀ (c : Nat) (call : Call), s.calls[c]? = some call → ∀ i e, .check i e ∈ call.done →
    Fits registry e.event
  prepared : ∀ (c : Nat) (call : Call), s.calls[c]? = some call → ∀ p ∈ call.prepared,
    p.key = p.entry.input.event.key ∧ Fits registry p.entry.input.event
  buf : ∀ p ∈ s.buf, p.key = p.entry.input.event.key ∧ Fits registry p.entry.input.event
  keys : ∀ key ∈ s.store.db.keys, ∃ e : Event, key = e.key ∧ Fits registry e
  read : ∀ (c : Nat) (call : Call) (id : UInt32), s.calls[c]? = some call →
    call.job = .deleteTimeline id → 2 ≤ call.pc → registry id = some call.dims
  unregistered : ∀ (c : Nat) (call : Call) (id : UInt32), s.calls[c]? = some call →
    call.job = .deleteTimeline id → 5 ≤ call.pc → s.store.registry id = none
  returned : ∀ (c : Nat) (call : Call), s.calls[c]? = some call → call.Returned
  cleared : ∀ id, s.cleared id = true → ∀ key ∈ s.store.db.keys, ¬ OfTimeline id key

/-- The instructions of a deletion, by their places. -/
theorem deletion_instr {instr : Instr} (hjob : call.job = .deleteTimeline id)
    (h : call.instr? = some instr) :
    call.pc < 5 ∧ (∀ id', instr = .read id' ↔ id' = id ∧ call.pc = 1) ∧
      (instr = .clear id ↔ call.pc = 3) ∧ (instr = .unregister id ↔ call.pc = 4) := by
  have hprogram := (instr?_eq_some h).2
  rw [hjob] at hprogram
  generalize call.pc = pc at hprogram ⊢
  rcases pc with - | - | - | - | - | pc <;> cases hprogram <;> simp [eq_comm]

/-- Only a deletion deletes the range of a timeline and unregisters it. -/
theorem job_of_instr (h : call.instr? = some (.clear id) ∨ call.instr? = some (.unregister id)) :
    call.job = .deleteTimeline id := by
  have hmem : Instr.clear id ∈ call.job.program ∨ Instr.unregister id ∈ call.job.program :=
    h.imp (fun h => mem_of_getElem? (instr?_eq_some h).2)
      fun h => mem_of_getElem? (instr?_eq_some h).2
  have hwriter : call.job.isWriter = false := by
    by_contra hwriter
    rw [Bool.not_eq_false] at hwriter
    cases hcoal : call.job.coal with
    | false => simp [Job.mem_program_direct hcoal hwriter] at hmem
    | true => simp [Job.mem_program_coal hcoal] at hmem
  cases hjob : call.job with
  | append | appendBatch =>
    rw [hjob] at hwriter
    cases hwriter
  | deleteTimeline id' =>
    rw [hjob] at hmem
    simpa [Job.program, eq_comm] using hmem
  | close =>
    rw [hjob] at hmem
    simp [Job.program] at hmem

namespace Tidy

variable {registry : UInt32 → Option Nat}

section

variable (h : Tidy registry s)

include h

theorem registry_eq {dims : Nat} (hdims : s.store.registry id = some dims) :
    registry id = some dims := by
  rcases h.defined id with heq | heq
  · exact heq.symm.trans hdims
  · rw [heq] at hdims
    cases hdims

theorem fits_of_queue {x : Entry} (hx : x ∈ s.queue) : Fits registry x.input.event := by
  have hsend := (h.accounts.sent_iff x).mp (h.accounts.perm.subset (mem_append_left _ hx))
  obtain ⟨call, hcall, hdone⟩ := exists_call_of_done hsend
  exact h.checked x.call call hcall x.index x.input (Job.mem_take_of_send hdone (.inr rfl))

section

variable (ho : Outcome s a s')

include ho

theorem defined_step (id : UInt32) :
    s'.store.registry id = registry id ∨ s'.store.registry id = none := by
  rcases ho.registry_spec id with heq | ⟨heq, -⟩
  · rw [heq]
    exact h.defined id
  · exact .inr heq

theorem checked_step (hcall' : s'.calls[c]? = some call') :
    (∀ i e, .check i e ∈ call'.done → Fits registry e.event) ∧
      ∀ p ∈ call'.prepared, p.key = p.entry.input.event.key ∧
        Fits registry p.entry.input.event := by
  refine ⟨?_, fun p hp => ?_⟩
  · rcases ho.call_cases hcall' with ⟨-, job, rfl⟩ | ⟨call, hcall, hstep⟩
    · exact fun i e hdone => absurd hdone not_mem_nil
    have hchecked := h.checked c call hcall
    cases hstep with
    | same | fail => exact hchecked
    | @next instr prepared dims hinstr heffect =>
      intro i e hdone
      rcases mem_append.mp (done_next hinstr ▸ hdone) with hdone | hdone
      · exact hchecked i e hdone
      · cases mem_singleton.mp hdone
        obtain ⟨kv, hexamine, -⟩ := heffect.check i e rfl
        exact h.registry_eq (examine_eq_ok hexamine).1
  · rcases ho.prepared_cases hcall' hp with ⟨call, hcall, -, hp⟩ | ⟨-, -, hreg, hencoded⟩
    · exact h.prepared c call hcall p hp
    · exact ⟨congrArg Pending.key hencoded, h.registry_eq hreg⟩

theorem buf_step :
    ∀ p ∈ s'.buf, p.key = p.entry.input.event.key ∧ Fits registry p.entry.input.event := by
  intro p hp
  rcases ho.buf_cases hp with hp | ⟨hqueue, hencoded⟩
  · exact h.buf p hp
  · exact ⟨congrArg Pending.key hencoded, h.fits_of_queue hqueue⟩

theorem keys_step : ∀ key ∈ s'.store.db.keys, ∃ e : Event, key = e.key ∧ Fits registry e := by
  intro key hkey
  rcases ho.keys_spec hkey with hkey | ⟨p, rfl, hp | ⟨c, call, hcall, hp⟩, -⟩
  · exact h.keys key hkey
  · exact ⟨_, h.buf p hp⟩
  · exact ⟨_, h.prepared c call hcall p hp⟩

theorem read_step (hcall' : s'.calls[c]? = some call') (hjob : call'.job = .deleteTimeline id)
    (hpc : 2 ≤ call'.pc) : registry id = some call'.dims := by
  rcases ho.call_cases hcall' with ⟨-, job, rfl⟩ | ⟨call, hcall, hstep⟩
  · exact absurd hpc (by simp [begin])
  cases hstep with
  | same => exact h.read c _ id hcall hjob hpc
  | fail => exact h.read c call id hcall hjob hpc
  | @next instr prepared dims hinstr heffect =>
    change call.job = .deleteTimeline id at hjob
    change 2 ≤ call.pc + 1 at hpc
    obtain ⟨-, hread, -⟩ := deletion_instr hjob hinstr
    by_cases hone : call.pc = 1
    · exact h.registry_eq (heffect.read id ((hread id).mpr ⟨rfl, hone⟩))
    · obtain rfl := heffect.dims fun id' heq => hone ((hread id').mp heq).2
      exact h.read c call id hcall hjob (by omega)

theorem unregistered_step (hcall' : s'.calls[c]? = some call')
    (hjob : call'.job = .deleteTimeline id) (hpc : 5 ≤ call'.pc) : s'.store.registry id = none := by
  have hmono : s.store.registry id = none → s'.store.registry id = none := by
    intro hnone
    rcases ho.registry_spec id with heq | ⟨heq, -⟩
    · rw [heq, hnone]
    · exact heq
  rcases ho.call_cases hcall' with ⟨-, job, rfl⟩ | ⟨call, hcall, hstep⟩
  · exact absurd hpc (by simp [begin])
  cases hstep with
  | same => exact hmono (h.unregistered c _ id hcall hjob hpc)
  | fail => exact hmono (h.unregistered c call id hcall hjob hpc)
  | @next instr prepared dims hinstr heffect =>
    change call.job = .deleteTimeline id at hjob
    change 5 ≤ call.pc + 1 at hpc
    obtain ⟨hlt, -, -, hlast⟩ := deletion_instr hjob hinstr
    rw [heffect.unregister id (hlast.mpr (by omega))]
    exact Function.update_self _ _ _

/-- A timeline whose range was deleted gets no keys. -/
theorem keep_cleared (hcond : s.strands a = false)
    (hcleared : s.cleared id = true) : ∀ key ∈ s'.store.db.keys, ¬ OfTimeline id key := by
  intro key hkey hid
  rcases ho.keys_spec hkey with hkey | ⟨p, rfl, hp, hopen⟩
  · exact h.cleared id hcleared key hkey hid
  · have hkeyed : p.key = p.entry.input.event.key := by
      rcases hp with hp | ⟨c, call, hcall, hp⟩
      · exact (h.buf p hp).1
      · exact (h.prepared c call hcall p hp).1
    rw [hkeyed, ofTimeline_key] at hid
    rw [← hid, hopen hcond] at hcleared
    cases hcleared

end

/-- The range of a timeline is deleted as a whole. -/
theorem clear_step (hcond : s.strands a = false) {prepared : List Pending}
    {dims : Nat} (hcall : s.calls[c]? = some call) (hinstr : call.instr? = some (.clear id))
    (heffect : Effect s a s' c call (.clear id) prepared dims) :
    ∀ key ∈ s'.store.db.keys, ¬ OfTimeline id key := by
  obtain ⟨ok, rfl⟩ := heffect.turn
  obtain ⟨hcommits, hstore⟩ := heffect.clear id rfl
  have hjob := job_of_instr (.inl hinstr)
  have hpc : call.pc = 3 := (deletion_instr hjob hinstr).2.2.1.mp rfl
  have hread := h.read c call id hcall hjob (by omega)
  rw [hstore]
  intro key hkey hid
  have hold := keys_deleteDataRange hkey
  by_cases hlast : id.toNat = 4294967295
  · -- nothing is deleted, but there is nothing
    simp only [strands, hcall, hinstr, hcommits ok rfl, hlast, decide_true, Bool.true_and,
      any_eq_false, decide_eq_true_eq] at hcond
    exact hcond key hold hid
  · obtain ⟨e, rfl, hfits⟩ := h.keys key hold
    rw [Fits, ofTimeline_key.mp hid, hread, Option.some.injEq] at hfits
    refine not_ofTimeline_of_mem hlast ?_ hkey hid
    rw [length_key, hfits]
    exact Nat.le_add_right _ _

theorem cleared_step (ho : Outcome s a s') (hcond : s.strands a = false)
    (hcleared : s'.cleared id = true) : ∀ key ∈ s'.store.db.keys, ¬ OfTimeline id key := by
  have hkeep : s.cleared id = true → ∀ key ∈ s'.store.db.keys, ¬ OfTimeline id key :=
    h.keep_cleared ho hcond
  rw [WriteSite.cleared, Bool.or_eq_true, Option.isNone_iff_eq_none, any_eq_true] at hcleared
  rcases hcleared with hnone | ⟨call', hmem, hinstr'⟩
  · rcases ho.registry_spec id with heq | ⟨-, hcleared⟩
    · refine hkeep ?_
      rw [WriteSite.cleared, ← heq, hnone]
      rfl
    · exact hkeep hcleared
  rw [decide_eq_true_eq] at hinstr'
  obtain ⟨c, hcall'⟩ := mem_iff_getElem?.mp hmem
  have hjob' := job_of_instr (.inr hinstr')
  have hpc' : call'.pc = 4 := (deletion_instr hjob' hinstr').2.2.2.mp rfl
  rcases ho.call_cases hcall' with ⟨-, job, rfl⟩ | ⟨call, hcall, hstep⟩
  · exact absurd hpc' (by simp [begin])
  cases hstep with
  | same =>
    refine hkeep ?_
    rw [WriteSite.cleared, Bool.or_eq_true]
    exact .inr (any_eq_true.mpr ⟨_, mem_of_getElem? hcall, decide_eq_true hinstr'⟩)
  | fail => cases hinstr'
  | @next instr prepared dims hinstr heffect =>
    -- the deletion has just deleted the range
    change call.job = .deleteTimeline id at hjob'
    change call.pc + 1 = 4 at hpc'
    obtain rfl := (deletion_instr hjob' hinstr).2.2.1.mpr (by omega)
    exact h.clear_step hcond hcall hinstr heffect

/-- **The invariant is kept** by every step that strands nothing. -/
theorem step (hcond : s.strands a = false) : Tidy registry (s.step a) := by
  have ho := step_outcome s a
  refine ⟨h.accounts.step a, h.defined_step ho, fun c call hcall => (h.checked_step ho hcall).1,
    fun c call hcall => (h.checked_step ho hcall).2, h.buf_step ho, h.keys_step ho,
    fun c call id => h.read_step ho, fun c call id => h.unregistered_step ho,
    fun c call' hcall' => ?_, fun id => h.cleared_step ho hcond⟩
  rcases ho.call_cases hcall' with ⟨-, job, rfl⟩ | ⟨call, hcall, hstep⟩
  · exact .inl
  · exact hstep.returned (h.returned c call hcall)

end

theorem opened {store : PebbleStore Stored} {events : List Event} (h : store.Stores events)
    (coalescing : Bool) : Tidy store.registry (opened store coalescing) where
  accounts := .opened store coalescing
  defined _ := .inl rfl
  checked c call hcall := by simp [WriteSite.opened] at hcall
  prepared c call hcall := by simp [WriteSite.opened] at hcall
  buf p hp := absurd hp not_mem_nil
  keys key hkey := by
    obtain ⟨e, he, rfl⟩ := mem_map.mp ((h.mem_keys key).mp hkey)
    exact ⟨e, rfl, h.registered e he⟩
  read c call id hcall := by simp [WriteSite.opened] at hcall
  unregistered c call id hcall := by simp [WriteSite.opened] at hcall
  returned c call hcall := by simp [WriteSite.opened] at hcall
  cleared id hcleared key hkey hid := by
    obtain ⟨e, he, rfl⟩ := mem_map.mp ((h.mem_keys key).mp hkey)
    have hreg : store.registry id = some e.dims.length := ofTimeline_key.mp hid ▸ h.registered e he
    simp [WriteSite.cleared, WriteSite.opened, hreg] at hcleared

theorem leavesNothing (h : Tidy registry s) : LeavesNothing s := by
  intro id c call hcall hjob hresult _
  refine h.cleared id ?_
  have hdone : call.done = call.job.program :=
    (h.returned c call hcall hresult).resolve_left (by simp [hjob, Job.atOnce])
  have hpc : 5 ≤ call.pc := by
    have hlength := congrArg List.length hdone
    rw [done, hjob, length_take] at hlength
    have hfive : (Job.deleteTimeline id).program.length = 5 := rfl
    omega
  rw [WriteSite.cleared, h.unregistered c call id hcall hjob hpc]
  rfl

end Tidy

/-- **A deleted timeline leaves nothing behind**, in every run in which no event is committed to a
timeline after its range was deleted, and the range of the last timeline is deleted only when it is
empty. -/
theorem leavesNothing_run (store : PebbleStore Stored) (events : List Event)
    (hstores : store.Stores events) (coalescing : Bool) (steps : List SiteStep)
    (h : Runs.Along step (fun s a => s.strands a = false) (opened store coalescing) steps) :
    LeavesNothing (run step (opened store coalescing) steps) :=
  (invariant_of_along (I := Tidy store.registry) (fun _ _ hs hcond => hs.step hcond)
    (.opened hstores coalescing) h).leavesNothing

theorem stores_oneStore : oneStore.Stores [] := ⟨fun _ => Iff.rfl, by simp, by simp, by simp⟩

/-- A reading is checked, and the deletion of timeline 1 has come to its range. -/
def begunDelete : List SiteStep :=
  [.call (.append (reading 10) false), .advance 0 true, .call (.deleteTimeline 1), .advance 1 true,
    .advance 1 true, .advance 1 true]

/-- The reading is written after the deletion. -/
def lateWrite : List SiteStep := begunDelete ++ [.advance 1 true, .advance 1 true, .advance 0 true]

/-- The reading is written before the range is deleted. -/
def earlyWrite : List SiteStep := begunDelete ++ [.advance 0 true, .advance 1 true, .advance 1 true]

theorem leavesNothing_earlyWrite : (oneRun earlyWrite).calls.map result = [some none, some none] ∧
    LeavesNothing (oneRun earlyWrite) :=
  ⟨by decide +kernel, leavesNothing_run oneStore [] stores_oneStore false earlyWrite
    (by decide +kernel)⟩

/-- The deletion and the writer have returned without an error, and the key is there. -/
theorem lateWrite_leaves_key : (oneRun lateWrite).calls.map result = [some none, some none] ∧
    (oneRun lateWrite).store.registry 1 = none ∧
    (oneRun lateWrite).store.db.keys = [(reading 10).event.key] ∧
    ¬ LeavesNothing (oneRun lateWrite) := by
  have hcalls : (oneRun lateWrite).calls =
      [⟨.append (reading 10) false, 2,
        [⟨⟨0, 0, reading 10⟩, (reading 10).event.key, [.num 20], []⟩], 0, some none⟩,
        ⟨.deleteTimeline 1, 5, [], 1, some none⟩] := by decide +kernel
  have hkeys : (oneRun lateWrite).store.db.keys = [(reading 10).event.key] := by decide +kernel
  refine ⟨by rw [hcalls]; rfl, by decide +kernel, hkeys, fun h => ?_⟩
  refine h 1 1 _ (by rw [hcalls]; rfl) rfl rfl ?_ (reading 10).event.key ?_ (by decide +kernel)
  · intro c' call' hcall' _
    rcases c' with - | - | c'
    · cases hcall'
      rfl
    · cases hcall'
      rfl
    · cases hcall'
  · rw [hkeys]
    exact mem_cons_self

end WriteSite

end Xolu.Timeseries
