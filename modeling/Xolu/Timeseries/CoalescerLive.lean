/-
# Every entry of the coalescer is answered (pkg/timeseries/store.go)

In a fair run the coalescer takes what is in the channel and writes its batch, so that every entry
is answered and no writer waits for ever.  `Close` tells the coalescer to stop, which then drains
the channel, writes what it has and returns; the writers are not told.  One that hands over an entry
after that waits for a reply that never comes.

Every entry is answered, exactly once, in every fair run in which nothing is handed over once the
coalescer is gone, and only finitely many entries while it drains the channel (`answered_run`).
-/
import Xolu.Lib.Live
import Xolu.Timeseries.Replies

namespace Xolu.Timeseries

open List Live Nat Runs Job

namespace WriteSite

variable {s s' : WriteSite} {a : SiteStep} {c : Nat} {call call' : Call} {instr : Instr} {x : Entry}

def CanAdvance (s : WriteSite) (c : Nat) : Prop :=
  ∃ (call : Call) (instr : Instr), s.calls[c]? = some call ∧ call.instr? = some instr ∧
    s.ready c instr

/-- An entry is handed over. -/
def sends (s : WriteSite) : SiteStep → Bool
  | .advance c _ =>
    match s.calls[c]? with
    | none => false
    | some call =>
      match call.instr? with
      | some (.send _ _) => s.queue.length < coalCapacity
      | _ => false
  | _ => false

/-- **Fair runs**: the coalescer goes on with what it can do, the ticker of its loop fires again and
again, and a call that can go on again and again does so. -/
structure Fair (st : Nat → WriteSite) (act : Nat → SiteStep) : Prop where
  receive : WeaklyFair (fun n => (st n).alive ∧ (st n).queue ≠ []) fun n => act n = .receive
  flush : WeaklyFair (fun n => (st n).coalescer = .running) fun n => ∃ ok, act n = .flush ok
  exit : WeaklyFair (fun n => (st n).coalescer = .draining ∧ (st n).queue = [])
    fun n => ∃ ok, act n = .exit ok
  advance : ∀ c, StronglyFair (fun n => (st n).CanAdvance c) fun n => ∃ ok, act n = .advance c ok

/-- **Every entry is answered**, exactly once; without an error if and only if its key and its value
were committed; and every writer returns. -/
structure Answered (st : Nat → WriteSite) : Prop where
  replied : ∀ n, ∀ x ∈ (st n).sent, ∃ m r, (x, r) ∈ (st m).replies
  once : ∀ n, ((st n).replies.map Prod.fst).Nodup
  nil_iff : ∀ n, ∀ r ∈ (st n).replies, r.2 = none ↔
    ⟨r.1, r.1.input.event.key, r.1.input.nums, r.1.input.payload⟩ ∈ (st n).written
  returned : ∀ (n c : Nat) (call : Call), (st n).calls[c]? = some call → call.job.isWriter →
    ∃ m ≥ n, ∃ call' : Call, (st m).calls[c]? = some call' ∧ call'.result.isSome

/-! ### What a step does to the coalescer -/

/-- What a step does to the channel. -/
theorem Outcome.queue_spec (h : Outcome s a s') :
    s'.queue = s.queue ∨ (s.sends a = true ∧ ∃ x, s'.queue = s.queue ++ [x]) ∨
      ∃ x, s.queue = x :: s'.queue := by
  cases h with
  | @send c ok call i e hcall hinstr hroom =>
    refine .inr (.inl ⟨?_, _, rfl⟩)
    simp only [sends, hcall, hinstr]
    exact decide_eq_true hroom
  | refuse err hqueue _ _ | accept key val hqueue _ _ => exact .inr (.inr ⟨_, hqueue⟩)
  | flush ok _ | exit ok _ _ => exact .inl (flush_queue s ok)
  | same | begin | fail | cancel | check | start | await | write | other | clear | unregister
    | stop => exact .inl rfl

/-- What a step does to the goroutine. -/
theorem Outcome.coalescer_spec (h : Outcome s a s') :
    s'.coalescer = s.coalescer ∨ s.coalescer = .idle ∧ s'.coalescer = .running ∨
      s.coalescer = .running ∧ s'.coalescer = .draining ∨
      s.coalescer = .draining ∧ s'.coalescer = .exited := by
  cases h with
  | start _ _ =>
    change (if s.coalescer = .idle then Coalescer.running else s.coalescer) = _ ∨ _ ∧
      (if s.coalescer = .idle then Coalescer.running else s.coalescer) = _ ∨ _
    split_ifs with hidle
    · exact .inr (.inl ⟨hidle, rfl⟩)
    · exact .inl rfl
  | flush ok _ => exact .inl (flush_coalescer s ok)
  | stop hrunning _ => exact .inr (.inr (.inl ⟨hrunning, rfl⟩))
  | exit ok hdraining _ => exact .inr (.inr (.inr ⟨hdraining, rfl⟩))
  | same | begin | fail | cancel | check | send | await | write | other | clear | unregister
    | refuse | accept => exact .inl rfl

theorem Outcome.sent_mono (h : Outcome s a s') : s.sent ⊆ s'.sent := by
  rcases h.history with ⟨-, hsent⟩ | ⟨c, instr, -, -, hsent⟩
  · rw [hsent]
    exact fun _ => id
  · rw [hsent]
    exact subset_append_left _ _

/-- The entry that is taken is the first one of the channel. -/
theorem receive_queue {queue : List Entry} (halive : s.alive) (hqueue : s.queue = x :: queue) :
    (s.step .receive).queue = queue := by
  change s.receive.queue = queue
  unfold receive
  rw [hqueue]
  simp only [if_pos halive]
  rcases s.encodeEntry x with err | ⟨key, val⟩
  · rfl
  · rfl

/-- The entry was answered. -/
def Replied (s : WriteSite) (x : Entry) : Prop := x ∈ s.replies.map Prod.fst

/-- A flush answers the batch. -/
theorem replied_flush {p : Pending} (ok : Bool) (hp : p ∈ s.buf) :
    (s.flush ok).Replied p.entry := by
  rw [Replied, flush_replies, map_append, map_map]
  exact mem_append_right _ (mem_map.mpr ⟨p, hp, rfl⟩)

/-! ### Calls that can go on -/

/-- A call that cannot go on stays where it is, unless its context is done. -/
theorem call_of_not_ready (hcall : s.calls[c]? = some call) (h : ¬ s.CanAdvance c) :
    ∃ call', (s.step a).calls[c]? = some call' ∧ (call' = call ∨ call'.result.isSome) := by
  obtain ⟨call', hcall', hstep⟩ := (step_outcome s a).call_next hcall
  cases hstep with
  | same => exact ⟨_, hcall', .inl rfl⟩
  | fail => exact ⟨_, hcall', .inr rfl⟩
  | @next instr prepared dims hinstr heffect =>
    obtain ⟨ok, rfl⟩ := heffect.turn
    refine ⟨call, ?_, .inl rfl⟩
    rw [step_advance ok hcall hinstr, exec_of_not_ready call ok, hcall]
    exact fun hready => h ⟨call, instr, hcall, hinstr, hready⟩

/-! ### What a run keeps -/

/-- The key and the value are those of the event. -/
def Pending.Encoded (p : Pending) : Prop :=
  p = ⟨p.entry, p.entry.input.event.key, p.entry.input.nums, p.entry.input.payload⟩

/-- **The invariant**: the coalescer that is gone has left nothing, one that has something to do was
started, calls that have not returned have an instruction, and what is written is encoded. -/
structure Served (s : WriteSite) : Prop where
  accounts : Accounts s
  gone : s.coalescer = .exited → s.queue = [] ∧ s.buf = []
  started : ∀ c, .start ∈ s.doneAt c → s.coalescer ≠ .idle
  unfinished : ∀ (c : Nat) (call : Call), s.calls[c]? = some call → call.result = none →
    call.pc < call.job.program.length
  prepared : ∀ (c : Nat) (call : Call), s.calls[c]? = some call → ∀ p ∈ call.prepared,
    Pending.Encoded p
  buf : ∀ p ∈ s.buf, Pending.Encoded p
  written : ∀ p ∈ s.written, Pending.Encoded p

namespace Served

theorem opened (store : PebbleStore Stored) (coalescing : Bool) :
    Served (opened store coalescing) where
  accounts := .opened store coalescing
  gone _ := ⟨rfl, rfl⟩
  started c hdone := by simp [WriteSite.opened, doneAt] at hdone
  unfinished c call hcall := by simp [WriteSite.opened] at hcall
  prepared c call hcall := by simp [WriteSite.opened] at hcall
  buf p hp := absurd hp not_mem_nil
  written p hp := absurd hp not_mem_nil

section

variable (ho : Outcome s a s')

include ho

theorem gone_step (h : Served s) (hlate : s.coalescer = .exited → s.sends a = false)
    (hexited : s'.coalescer = .exited) : s'.queue = [] ∧ s'.buf = [] := by
  cases ho with
  | start _ _ =>
    refine h.gone ?_
    change (if s.coalescer = .idle then Coalescer.running else s.coalescer) = .exited at hexited
    split_ifs at hexited
    exact hexited
  | @send c ok call i e hcall hinstr hroom =>
    have hsends := hlate hexited
    simp only [sends, hcall, hinstr] at hsends
    exact absurd hroom (of_decide_eq_false hsends)
  | refuse err hqueue halive _ | accept key val hqueue halive _ =>
    rw [(h.gone hexited).1] at hqueue
    cases hqueue
  | flush ok hrunning =>
    rw [flush_coalescer, hrunning] at hexited
    cases hexited
  | exit ok _ hqueue => exact ⟨(flush_queue s ok).trans hqueue, rfl⟩
  | stop _ _ => cases hexited
  | same | begin | fail | cancel | check | await | write | other | clear | unregister =>
    exact h.gone hexited

theorem not_idle_step (h : s.coalescer ≠ .idle) : s'.coalescer ≠ .idle := by
  rcases ho.coalescer_spec with heq | ⟨-, heq⟩ | ⟨-, heq⟩ | ⟨-, heq⟩
  · rwa [heq]
  all_goals simp [heq]

theorem started_step (h : Served s) (hdone : .start ∈ s'.doneAt c) : s'.coalescer ≠ .idle := by
  obtain ⟨call', hcall', hdone⟩ := exists_call_of_done hdone
  rcases ho.call_cases hcall' with ⟨-, job, rfl⟩ | ⟨call, hcall, hstep⟩
  · exact absurd hdone not_mem_nil
  have hold : .start ∈ call.done → s'.coalescer ≠ .idle := fun hdone =>
    not_idle_step ho (h.started c (doneAt_of_call hcall ▸ hdone))
  cases hstep with
  | same | fail => exact hold hdone
  | @next instr prepared dims hinstr heffect =>
    rcases mem_append.mp (Call.done_next hinstr ▸ hdone) with hdone | hdone
    · exact hold hdone
    · exact heffect.start (mem_singleton.mp hdone).symm

theorem unfinished_step (h : Served s) (hcall' : s'.calls[c]? = some call')
    (hresult : call'.result = none) : call'.pc < call'.job.program.length := by
  rcases ho.call_cases hcall' with ⟨-, job, rfl⟩ | ⟨call, hcall, hstep⟩
  · cases job with
    | append e coal => cases coal <;> exact zero_lt_succ _
    | appendBatch events maxBatch coal =>
      cases coal with
      | true => exact zero_lt_succ _
      | false =>
        change 0 < (checks 0 events ++ [Instr.write]).length
        rw [length_append]
        exact zero_lt_succ _
    | deleteTimeline | close => exact zero_lt_succ _
  cases hstep with
  | same => exact h.unfinished c _ hcall hresult
  | fail => cases hresult
  | @next instr prepared dims hinstr heffect =>
    have hlt := h.unfinished c call hcall (Call.instr?_eq_some hinstr).1
    change (if call.pc + 1 = call.job.program.length then some none else none) = none at hresult
    split_ifs at hresult with hlast
    change call.pc + 1 < call.job.program.length
    omega

theorem prepared_step (h : Served s) (hcall' : s'.calls[c]? = some call') :
    ∀ p ∈ call'.prepared, Pending.Encoded p := by
  intro p hp
  rcases ho.prepared_cases hcall' hp with ⟨call, hcall, -, hp⟩ | ⟨-, -, -, hencoded⟩
  · exact h.prepared c call hcall p hp
  · exact hencoded

theorem buf_step (h : Served s) : ∀ p ∈ s'.buf, Pending.Encoded p := by
  intro p hp
  rcases ho.buf_cases hp with hp | ⟨-, hencoded⟩
  · exact h.buf p hp
  · exact hencoded

theorem written_step (h : Served s) : ∀ p ∈ s'.written, Pending.Encoded p := by
  intro p hp
  rcases ho.written_spec with ⟨hwritten, -⟩ | ⟨c, call, hcall, -, hwritten, -⟩ |
    ⟨_, _, _, -, -, -, hwritten, -⟩ | ⟨ok, hwritten, -⟩
  · exact h.written p (hwritten ▸ hp)
  · rw [hwritten] at hp
    exact (mem_append.mp hp).elim (h.written p) (h.prepared c call hcall p)
  · exact h.written p (hwritten ▸ hp)
  · rw [hwritten] at hp
    rcases mem_append.mp hp with hp | hp
    · exact h.written p hp
    · split_ifs at hp
      · exact h.buf p hp
      · exact absurd hp not_mem_nil

end

/-- **The invariant is kept** by every step that does not hand over to a coalescer that is gone. -/
theorem step (h : Served s) (hlate : s.coalescer = .exited → s.sends a = false) :
    Served (s.step a) := by
  have ho := step_outcome s a
  exact ⟨h.accounts.step a, h.gone_step ho hlate, fun c => h.started_step ho,
    fun c call => h.unfinished_step ho, fun c call => h.prepared_step ho, h.buf_step ho,
    h.written_step ho⟩

end Served

/-! ### Infinite runs -/

theorem length_of_sends (h : s.sends a = true) : s.queue.length < coalCapacity := by
  unfold sends at h
  split at h
  · split at h
    · cases h
    · split at h
      · exact of_decide_eq_true h
      · cases h
  · cases h

theorem reply?_ne_none (hx : s.Replied x) : s.reply? x.call x.index ≠ none := by
  obtain ⟨r, hr, rfl⟩ := mem_map.mp hx
  intro hnone
  rw [reply?, Option.map_eq_none_iff, find?_eq_none] at hnone
  exact hnone r hr (by simp)

theorem Outcome.replied_mono (h : Outcome s a s') (hx : s.Replied x) : s'.Replied x :=
  map_subset _ h.mono.1 hx

/-- What is in the batch stays there until it is answered. -/
theorem Outcome.buf_mono {p : Pending} (h : Outcome s a s') (hp : p ∈ s.buf) :
    p ∈ s'.buf ∨ s'.Replied p.entry := by
  cases h with
  | accept key val _ _ _ => exact .inl (mem_append_left _ hp)
  | flush ok _ | exit ok _ _ => exact .inr (replied_flush ok hp)
  | same | begin | fail | cancel | check | start | send | await | write | other | clear | unregister
    | refuse | stop => exact .inl hp

/-- A fair run that keeps the invariant. -/
structure Execution (st : Nat → WriteSite) (act : Nat → SiteStep) : Prop where
  next : ∀ n, st (n + 1) = (st n).step (act n)
  served : ∀ n, Served (st n)
  fair : Fair st act
  drained : ∃ N, ∀ n ≥ N, (st n).coalescer = .draining → (st n).sends (act n) = false

/-- The call returned. -/
abbrev Returned (s : WriteSite) (c : Nat) : Prop :=
  ∃ call : Call, s.calls[c]? = some call ∧ call.result.isSome

namespace Execution

variable {st : Nat → WriteSite} {act : Nat → SiteStep} {n m : Nat}

section

variable (h : Execution st act)

include h

theorem outcome (n : Nat) : Outcome (st n) (act n) (st (n + 1)) := by
  rw [h.next n]
  exact step_outcome _ _

theorem sent_mono (hx : x ∈ (st n).sent) (hm : n ≤ m) : x ∈ (st m).sent := by
  induction hm with
  | refl => exact hx
  | @step k _ hx => exact (h.outcome k).sent_mono hx

/-- A coalescer that has something to do is there. -/
theorem alive (hsome : (st n).queue ≠ [] ∨ (st n).buf ≠ []) : (st n).alive := by
  have hsent : ∃ x, x ∈ (st n).sent := by
    rcases hsome with hne | hne
    · obtain ⟨x, hx⟩ := exists_mem_of_ne_nil _ hne
      exact ⟨x, (h.served n).accounts.perm.subset (mem_append_left _ hx)⟩
    · obtain ⟨p, hp⟩ := exists_mem_of_ne_nil _ hne
      exact ⟨p.entry, (h.served n).accounts.perm.subset (mem_append_right _
        (mem_append_left _ (mem_map_of_mem hp)))⟩
  obtain ⟨x, hx⟩ := hsent
  obtain ⟨call, hcall, hdone⟩ := exists_call_of_done (((h.served n).accounts.sent_iff x).mp hx)
  have hidle := (h.served n).started x.call (by
    rw [doneAt_of_call hcall]
    exact mem_take_of_send hdone (.inl rfl))
  rcases hphase : (st n).coalescer with - | - | - | -
  · exact absurd hphase hidle
  · exact .inl hphase
  · exact .inr hphase
  · obtain ⟨hqueue, hbuf⟩ := (h.served n).gone hphase
    exact absurd hsome (by simp [hqueue, hbuf])

/-- The coalescer takes the first entry of the channel. -/
theorem receive_pop (hne : (st n).queue ≠ []) (hact : act n = .receive) :
    ∃ y, (st n).queue = y :: (st (n + 1)).queue := by
  obtain ⟨y, queue, hqueue⟩ := exists_cons_of_ne_nil hne
  refine ⟨y, ?_⟩
  rw [h.next n, hact, receive_queue (h.alive (.inl hne)) hqueue, hqueue]

/-- The channel does not stay as it is while nothing is handed over. -/
theorem eventually_of_quiet {Q : Nat → Prop} (hquiet : ∀ m ≥ n, ¬ Q m →
    (st m).queue ≠ [] ∧ (st m).sends (act m) = false) : ∃ m ≥ n, Q m := by
  refine h.fair.receive.eventually (r := fun m => (st m).queue.length) n ?_ ?_ ?_
  · intro m hm hnot
    have hne := (hquiet m hm hnot).1
    exact ⟨h.alive (.inl hne), hne⟩
  · intro m hm hnot
    rcases (h.outcome m).queue_spec with heq | ⟨hsends, -⟩ | ⟨y, hqueue⟩
    · exact .inr (by rw [heq])
    · rw [(hquiet m hm hnot).2] at hsends
      cases hsends
    · exact .inr (by rw [hqueue, length_cons]; exact le_succ _)
  · intro m hm hnot hact
    obtain ⟨y, hqueue⟩ := h.receive_pop (hquiet m hm hnot).1 hact
    exact .inr (by rw [hqueue, length_cons]; exact lt_succ_self _)

/-- Every entry leaves the channel. -/
theorem leaves_queue (n : Nat) (x : Entry) : ∃ m ≥ n, x ∉ (st m).queue := by
  -- the place of the entry in the channel decreases
  have hpop : ∀ m y, (st m).queue = y :: (st (m + 1)).queue → x ∈ (st m).queue →
      x ∉ (st (m + 1)).queue ∨ (st (m + 1)).queue.idxOf x < (st m).queue.idxOf x := by
    intro m y hqueue hx
    have hnodup : (st m).queue.Nodup :=
      (nodup_append.mp ((h.served m).accounts.perm.nodup_iff.mpr (h.served m).accounts.nodup)).1
    by_cases heq : y = x
    · rw [hqueue, heq] at hnodup
      exact .inl (nodup_cons.mp hnodup).1
    · right
      rw [hqueue, idxOf_cons_ne _ heq]
      exact lt_succ_self _
  refine h.fair.receive.eventually (Q := fun m => x ∉ (st m).queue)
    (r := fun m => (st m).queue.idxOf x) n ?_ ?_ ?_
  · intro m _ hx
    have hne := ne_nil_of_mem (not_not.mp hx)
    exact ⟨h.alive (.inl hne), hne⟩
  · intro m _ hx
    replace hx := not_not.mp hx
    rcases (h.outcome m).queue_spec with heq | ⟨-, y, heq⟩ | ⟨y, hqueue⟩
    · exact .inr (by rw [heq])
    · exact .inr (by rw [heq, idxOf_append_of_mem hx])
    · exact (hpop m y hqueue hx).imp_right le_of_lt
  · intro m _ hx hact
    replace hx := not_not.mp hx
    obtain ⟨y, hqueue⟩ := h.receive_pop (ne_nil_of_mem hx) hact
    exact hpop m y hqueue hx

variable {p : Pending}

theorem buf_or_replied (hp : p ∈ (st n).buf) (hm : n ≤ m) :
    p ∈ (st m).buf ∨ (st m).Replied p.entry := by
  induction hm with
  | refl => exact .inl hp
  | @step k _ hk =>
    rcases hk with hk | hk
    · exact (h.outcome k).buf_mono hk
    · exact .inr ((h.outcome k).replied_mono hk)

/-- What is in the batch keeps the coalescer from leaving until it is answered. -/
theorem draining_or_replied (hp : p ∈ (st n).buf) (hdraining : (st n).coalescer = .draining)
    (hm : n ≤ m) : (st m).coalescer = .draining ∨ (st m).Replied p.entry := by
  induction hm with
  | refl => exact .inl hdraining
  | @step k hk hphase =>
    rcases hphase with hphase | hreplied
    · rcases (h.outcome k).coalescer_spec with heq | ⟨hidle, -⟩ | ⟨hrunning, -⟩ | ⟨-, hexited⟩
      · exact .inl (heq.trans hphase)
      · rw [hphase] at hidle
        cases hidle
      · rw [hphase] at hrunning
        cases hrunning
      · -- a coalescer that is gone has answered
        have hbuf := ((h.served (k + 1)).gone hexited).2
        refine .inr ((h.buf_or_replied hp (le_trans hk (le_succ k))).resolve_left ?_)
        rw [hbuf]
        exact not_mem_nil
    · exact .inr ((h.outcome k).replied_mono hreplied)

/-- A coalescer that drains the channel comes to its end and answers. -/
theorem answered_of_draining (hp : p ∈ (st n).buf) (hdraining : (st n).coalescer = .draining) :
    ∃ m ≥ n, (st m).Replied p.entry := by
  obtain ⟨N, hN⟩ := h.drained
  have hquiet : ∀ m ≥ max n N, ¬ (st m).Replied p.entry →
      (st m).coalescer = .draining ∧ (st m).sends (act m) = false := by
    intro m hm hnot
    have hphase := (h.draining_or_replied hp hdraining (le_of_max_le_left hm)).resolve_right hnot
    exact ⟨hphase, hN m (le_of_max_le_right hm) hphase⟩
  -- first the channel becomes empty
  obtain ⟨m, hm, hempty⟩ := h.eventually_of_quiet (n := max n N)
    (Q := fun m => (st m).Replied p.entry ∨ (st m).queue = [])
    fun m hm hnot => ⟨(not_or.mp hnot).2, (hquiet m hm (not_or.mp hnot).1).2⟩
  -- and stays so until the coalescer leaves
  have hstays : ∀ k ≥ m, (st k).Replied p.entry ∨ (st k).queue = [] := by
    intro k hk
    induction hk with
    | refl => exact hempty
    | @step k hk hor =>
      by_cases hreplied : (st k).Replied p.entry
      · exact .inl ((h.outcome k).replied_mono hreplied)
      · have hqueue := hor.resolve_left hreplied
        rcases (h.outcome k).queue_spec with heq | ⟨hsends, -⟩ | ⟨y, heq⟩
        · exact .inr (heq.trans hqueue)
        · rw [(hquiet k (hm.trans hk) hreplied).2] at hsends
          cases hsends
        · rw [hqueue] at heq
          cases heq
  obtain ⟨k, hk, hreplied⟩ := h.fair.exit.eventually
    (Q := fun k => (st k).Replied p.entry) (r := fun _ => 0) m
    (fun k hk hnot => ⟨(hquiet k (hm.trans hk) hnot).1, (hstays k hk).resolve_left hnot⟩)
    (fun _ _ _ => .inr le_rfl)
    (fun k hk hnot hact => by
      obtain ⟨ok, hact⟩ := hact
      have hphase := (hquiet k (hm.trans hk) hnot).1
      have hqueue := (hstays k hk).resolve_left hnot
      have hbuf := (h.buf_or_replied hp ((le_of_max_le_left hm).trans hk)).resolve_right hnot
      left
      rw [h.next k, hact, step, if_pos ⟨hphase, hqueue⟩]
      exact replied_flush ok hbuf)
  exact ⟨k, (le_of_max_le_left hm).trans hk, hreplied⟩

/-- In its loop the coalescer writes its batch, unless it has to stop. -/
theorem answered_of_buf (hp : p ∈ (st n).buf) : ∃ m ≥ n, (st m).Replied p.entry := by
  have hturn : ∀ m ≥ n, ¬ ((st m).Replied p.entry ∨ (st m).coalescer = .draining) →
      p ∈ (st m).buf ∧ (st m).coalescer = .running := by
    intro m hm hnot
    have hbuf := (h.buf_or_replied hp hm).resolve_right (not_or.mp hnot).1
    exact ⟨hbuf, (h.alive (.inr (ne_nil_of_mem hbuf))).resolve_right (not_or.mp hnot).2⟩
  obtain ⟨m, hm, hreplied | hdraining⟩ := h.fair.flush.eventually
    (r := fun _ => 0) n (fun m hm hnot => (hturn m hm hnot).2) (fun _ _ _ => .inr le_rfl)
    (fun m hm hnot hact => by
      obtain ⟨ok, hact⟩ := hact
      obtain ⟨hbuf, hrunning⟩ := hturn m hm hnot
      refine .inl (.inl ?_)
      rw [h.next m, hact, step, if_pos hrunning]
      exact replied_flush ok hbuf)
  · exact ⟨m, hm, hreplied⟩
  · rcases h.buf_or_replied hp hm with hbuf | hreplied
    · obtain ⟨k, hk, hreplied⟩ := h.answered_of_draining hbuf hdraining
      exact ⟨k, hm.trans hk, hreplied⟩
    · exact ⟨m, hm, hreplied⟩

/-- **Every entry is answered.** -/
theorem answered (hx : x ∈ (st n).sent) : ∃ m ≥ n, (st m).Replied x := by
  obtain ⟨m, hm, hout⟩ := h.leaves_queue n x
  have hmem := (h.served m).accounts.perm.symm.subset (h.sent_mono hx hm)
  rcases mem_append.mp hmem with hqueue | hmem
  · exact absurd hqueue hout
  rcases mem_append.mp hmem with hbuf | hreplied
  · obtain ⟨p, hp, rfl⟩ := mem_map.mp hbuf
    obtain ⟨k, hk, hreplied⟩ := h.answered_of_buf hp
    exact ⟨k, hm.trans hk, hreplied⟩
  · exact ⟨m, hm, hreplied⟩

/-- The channel has room again. -/
theorem exists_room (n : Nat) : ∃ m ≥ n, (st m).queue.length < coalCapacity := by
  refine h.eventually_of_quiet fun m _ hfull => ⟨fun hnil => hfull ?_, ?_⟩
  · rw [hnil]
    decide
  · exact Bool.eq_false_iff.mpr fun hsends => hfull (length_of_sends hsends)

/-- A call that never can go on, and is not called off, stays where it is. -/
theorem call_stays (hcall : (st n).calls[c]? = some call)
    (hstuck : ∀ m ≥ n, ¬ (st m).Returned c ∧ ¬ (st m).CanAdvance c) (hm : n ≤ m) :
    (st m).calls[c]? = some call := by
  induction hm with
  | refl => exact hcall
  | @step k hk hcall =>
    obtain ⟨call', hcall', rfl | hresult⟩ := call_of_not_ready (a := act k) hcall (hstuck k hk).2
    · rw [h.next k, hcall']
    · rw [← h.next k] at hcall'
      exact absurd ⟨call', hcall', hresult⟩ (hstuck (k + 1) (le_trans hk (le_succ k))).1

/-- A writer that has not returned can go on at some time. -/
theorem exists_canAdvance (hcall : (st n).calls[c]? = some call) (hwriter : call.job.isWriter)
    (hresult : call.result = none) : ∃ m ≥ n, (st m).Returned c ∨ (st m).CanAdvance c := by
  by_contra hnone
  have hstuck : ∀ m ≥ n, ¬ (st m).Returned c ∧ ¬ (st m).CanAdvance c :=
    fun m hm => not_or.mp fun hor => hnone ⟨m, hm, hor⟩
  have hpc := (h.served n).unfinished c call hcall hresult
  obtain ⟨instr, hprogram⟩ : ∃ instr, call.job.program[call.pc]? = some instr :=
    ⟨_, getElem?_eq_getElem hpc⟩
  have hinstr : call.instr? = some instr := by
    rw [Call.instr?, hresult]
    exact hprogram
  have hnever : ∀ m ≥ n, ¬ (st m).ready c instr := fun m hm hready =>
    (hstuck m hm).2 ⟨call, instr, h.call_stays hcall hstuck hm, hinstr, hready⟩
  have hmem := mem_of_getElem? hprogram
  cases hcoal : call.job.coal with
  | false =>
    rcases (mem_program_direct hcoal hwriter).mp hmem with ⟨i, e, -, rfl⟩ | rfl
    · exact hnever n le_rfl trivial
    · exact hnever n le_rfl trivial
  | true =>
    rcases (mem_program_coal hcoal).mp hmem with rfl | ⟨i, e, -, rfl | rfl⟩ | ⟨i, hi, rfl⟩
    · exact hnever n le_rfl trivial
    · exact hnever n le_rfl trivial
    · obtain ⟨m, hm, hroom⟩ := h.exists_room n
      exact hnever m hm hroom
    · -- the event was handed over, and is answered
      have hevent := getElem?_eq_getElem hi
      have hsend : .send i call.job.events[i] ∈ call.done := by
        refine (mem_take_iff (events_ne_nil hevent) hprogram
          ((mem_program_coal hcoal).mpr (.inr (.inl ⟨i, _, hevent, .inr rfl⟩)))).mpr ?_
        simp only [rank]
        omega
      have hsent : ⟨c, i, call.job.events[i]⟩ ∈ (st n).sent :=
        ((h.served n).accounts.sent_iff ⟨c, i, _⟩).mpr (doneAt_of_call hcall ▸ hsend)
      obtain ⟨m, hm, hreplied⟩ := h.answered hsent
      exact hnever m hm (reply?_ne_none hreplied)

/-- **No writer waits for ever.** -/
theorem returns (hcall : (st n).calls[c]? = some call)
    (hwriter : call.job.isWriter) : ∃ m ≥ n, (st m).Returned c := by
  have hthere : ∀ m ≥ n, ∃ call' : Call, (st m).calls[c]? = some call' ∧ call'.job = call.job := by
    intro m hm
    induction hm with
    | refl => exact ⟨call, hcall, rfl⟩
    | @step k _ hk =>
      obtain ⟨call₁, hcall₁, hjob⟩ := hk
      obtain ⟨call₂, hcall₂, hstep⟩ := (h.outcome k).call_next hcall₁
      exact ⟨call₂, hcall₂, hstep.job_eq.trans hjob⟩
  -- what is left of the program decreases
  refine (h.fair.advance c).eventually (r := fun m =>
    call.job.program.length - ((st m).calls[c]?.map Call.pc).getD 0) n ?_ ?_ ?_
  · intro m hm hnot
    obtain ⟨call₁, hcall₁, hjob⟩ := hthere m hm
    refine h.exists_canAdvance hcall₁ (hjob ▸ hwriter) ?_
    exact Option.not_isSome_iff_eq_none.mp fun hsome => hnot ⟨call₁, hcall₁, hsome⟩
  · intro m hm hnot
    obtain ⟨call₁, hcall₁, hjob⟩ := hthere m hm
    obtain ⟨call₂, hcall₂, hstep⟩ := (h.outcome m).call_next hcall₁
    cases hstep with
    | same => exact .inr (by rw [hcall₁, hcall₂])
    | fail => exact .inl ⟨_, hcall₂, rfl⟩
    | next =>
      right
      rw [hcall₁, hcall₂]
      change call.job.program.length - (call₁.pc + 1) ≤ call.job.program.length - call₁.pc
      omega
  · rintro m hm hnot ⟨call₁, instr, hcall₁, hinstr, hready⟩ ⟨ok, hact⟩
    obtain ⟨call', hcall', hjob⟩ := hthere m hm
    rw [hcall₁, Option.some.injEq] at hcall'
    subst hcall'
    have hlt := (h.served m).unfinished c call₁ hcall₁ (Call.instr?_eq_some hinstr).1
    obtain ⟨-, call₂, hcall₂, hresult | ⟨-, hpc⟩⟩ := goesOn_exec ok hcall₁ hinstr hready
    all_goals
      have hnext : (st (m + 1)).calls[c]? = some call₂ := by
        rwa [h.next m, hact, step_advance ok hcall₁ hinstr]
    · exact .inl ⟨call₂, hnext, hresult⟩
    · right
      rw [hcall₁, hnext, ← hjob]
      simp only [Option.map_some, Option.getD_some, hpc]
      omega

theorem answered_all : Answered st where
  replied n x hx := by
    obtain ⟨m, -, hmem⟩ := h.answered hx
    obtain ⟨⟨x', r⟩, hr, rfl⟩ := mem_map.mp hmem
    exact ⟨m, r, hr⟩
  once n := by
    have hnodup := (h.served n).accounts.perm.nodup_iff.mpr (h.served n).accounts.nodup
    exact (nodup_append.mp (nodup_append.mp hnodup).2.1).2.1
  nil_iff n r hr := by
    rw [(h.served n).accounts.nil_iff r hr]
    constructor
    · rintro ⟨p, hp, hentry⟩
      rw [← hentry, ← (h.served n).written p hp]
      exact hp
    · exact fun hp => ⟨_, hp, rfl⟩
  returned n c call hcall hwriter := h.returns hcall hwriter

end

end Execution

/-- **Every coalesced write is answered**, in every fair run in which nothing is handed over once
the coalescer is gone, and only finitely many entries while it drains the channel. -/
theorem answered_run (store : PebbleStore Stored) (coalescing : Bool) (act : Nat → SiteStep)
    (hfair : Fair (stateAt step (opened store coalescing) act) act)
    (hlate : ∀ n, (stateAt step (opened store coalescing) act n).coalescer = .exited →
      (stateAt step (opened store coalescing) act n).sends (act n) = false)
    (hdrain : ∃ N, ∀ n ≥ N, (stateAt step (opened store coalescing) act n).coalescer = .draining →
      (stateAt step (opened store coalescing) act n).sends (act n) = false) :
    Answered (stateAt step (opened store coalescing) act) := by
  refine Execution.answered_all ⟨fun n => rfl, ?_, hfair, hdrain⟩
  exact stateAt_invariant (C := fun s a => s.coalescer = .exited → s.sends a = false)
    (fun s a hs hlate => hs.step hlate) (.opened store coalescing) hlate

/-! ### Runs that come to rest -/

theorem flush_of_nil (ok : Bool) (h : s.buf = []) : s.flush ok = s := by
  cases s
  subst h
  unfold flush commit
  split_ifs <;> simp

theorem receive_of_not_alive (h : ¬ s.alive) : s.receive = s := by
  unfold receive
  rcases s.queue with - | ⟨x, queue⟩
  · rfl
  · exact if_neg h

/-- A run at rest is fair if nothing but a flush can happen, and that happens. -/
theorem fair_of_rest {st : Nat → WriteSite} {act : Nat → SiteStep} {N : Nat}
    (hst : ∀ n ≥ N, st n = s) (hreceive : ¬ (s.alive ∧ s.queue ≠ []))
    (hflush : s.coalescer ≠ .running ∨ ∀ n ≥ N, ∃ ok, act n = .flush ok)
    (hexit : s.coalescer ≠ .draining) (hadvance : ∀ c, ¬ s.CanAdvance c) : Fair st act where
  receive := .of_not (N := N) fun n hn => by rwa [hst n hn]
  flush := by
    rcases hflush with hflush | hflush
    · exact .of_not (N := N) fun n hn => by rwa [hst n hn]
    · exact .of_taken hflush
  exit := .of_not (N := N) fun n hn hand => hexit (hst n hn ▸ hand.1)
  advance c := .of_not (N := N) fun n hn => hst n hn ▸ hadvance c

/-- A reading is written through the coalescer. -/
def coalescedWrite : List SiteStep :=
  [.call (.append (reading 10) true), .advance 0 true, .advance 0 true, .advance 0 true, .receive,
    .flush true, .advance 0 true]

/-- The store is closed after the reading was checked and before it is handed over. -/
def closedWrite : List SiteStep :=
  [.call (.append (reading 10) true), .advance 0 true, .advance 0 true, .call .close,
    .advance 1 true, .stop, .exit true, .advance 1 true, .advance 1 true, .advance 0 true]

/-- The states of a run that goes on with one step. -/
def oneRunOn (steps : List SiteStep) (a : SiteStep) : Nat → WriteSite :=
  stateAt step (opened oneStore false) (thenForever steps a)

theorem closedWrite_calls : (oneRun closedWrite).calls =
    [⟨.append (reading 10) true, 3, [], 0, none⟩, ⟨.close, 3, [], 0, some none⟩] := by
  decide +kernel

theorem answered_coalescedWrite : Answered (oneRunOn coalescedWrite (.flush true)) := by
  have hrest : step (oneRun coalescedWrite) (.flush true) = oneRun coalescedWrite := by
    rw [step, if_pos (by decide +kernel)]
    exact flush_of_nil true (by decide +kernel)
  have hst : ∀ n ≥ 7, oneRunOn coalescedWrite (.flush true) n = oneRun coalescedWrite :=
    fun n hn => stateAt_rest hrest hn
  have hact : ∀ n ≥ 7, thenForever coalescedWrite (.flush true) n = .flush true :=
    fun n hn => getD_eq_default _ _ hn
  refine answered_run oneStore false (thenForever coalescedWrite (.flush true)) ?_ ?_ ?_
  · refine fair_of_rest hst (by decide +kernel) (.inr fun n hn => ⟨true, hact n hn⟩)
      (by decide +kernel) ?_
    rintro c ⟨call, instr, hcall, hinstr, -⟩
    rcases c with - | c
    · cases hcall
      cases hinstr
    · cases hcall
  · intro n hexited
    by_cases hn : 7 ≤ n
    · rw [hact n hn]
      rfl
    · -- the coalescer is never gone
      rw [stateAt_take _ _ _ (Nat.le_of_not_le hn)] at hexited
      have hnever : ∀ k < 7, (oneRun (coalescedWrite.take k)).coalescer ≠ .exited := by
        decide +kernel
      exact absurd hexited (hnever n (Nat.lt_of_not_le hn))
  · refine ⟨7, fun n hn _ => ?_⟩
    rw [hact n hn]
    rfl

/-- The reading is handed over to no one: there is never a reply, and the call does not return. -/
theorem closedWrite_waits :
    Fair (oneRunOn closedWrite .receive) (thenForever closedWrite .receive) ∧
    (∀ n ≥ 10, (oneRunOn closedWrite .receive n).sent = [⟨0, 0, reading 10⟩] ∧
      (oneRunOn closedWrite .receive n).replies = []) ∧
    ¬ Answered (oneRunOn closedWrite .receive) := by
  have hrest : step (oneRun closedWrite) .receive = oneRun closedWrite := by
    rw [step]
    exact receive_of_not_alive (by decide +kernel)
  have hst : ∀ n ≥ 10, oneRunOn closedWrite .receive n = oneRun closedWrite :=
    fun n hn => stateAt_rest hrest hn
  refine ⟨fair_of_rest hst (by decide +kernel) (.inl (by decide +kernel)) (by decide +kernel) ?_,
    ?_, fun h => ?_⟩
  · rintro c ⟨call, instr, hcall, hinstr, hready⟩
    rcases c with - | - | c
    · cases hcall
      cases hinstr
      exact hready (by decide +kernel)
    · cases hcall
      cases hinstr
    · cases hcall
  · intro n hn
    rw [hst n hn]
    decide +kernel
  · have hcall : (oneRunOn closedWrite .receive 10).calls[0]? =
        some ⟨.append (reading 10) true, 3, [], 0, none⟩ := by
      rfl
    obtain ⟨m, hm, call', hcall', hresult⟩ := h.returned 10 0 _ hcall rfl
    rw [hst m hm, closedWrite_calls] at hcall'
    cases hcall'
    cases hresult

end WriteSite

end Xolu.Timeseries
