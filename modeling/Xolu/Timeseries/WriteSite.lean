/-
# Writers, the coalescer and the teardown of a timeline (pkg/timeseries)

Calls of `Append`, `AppendBatch`, `DeleteTimeline` and `Close` run at the same time as the goroutine
that coalesces writes.  A call is a list of instructions, each of which looks at or changes what the
parties share: the registry, the store, the channel to the coalescer and the channels back.  A step
of the site is one instruction of one call, or one round of the coalescer; the steps of the parties
may come in any order.

In direct mode a call writes into the store itself.  In coalescing mode it hands its events over,
one by one, and waits for a reply to each.
-/
import Xolu.Timeseries.RollupRegistry

namespace Xolu.Timeseries

open Num64

/-! ### Events as they are given to a call -/

/-- A number of an event, as far as the write path tells it apart. -/
inductive Float64 where
  | nan
  | inf (negative : Bool)
  | num (value : ℚ)
deriving DecidableEq, Repr

/-- An event with its numbers and its payload. -/
structure Input where
  event : Event
  nums : List Float64
  payload : List UInt8
deriving DecidableEq, Repr

/-- What is stored for an event: the numbers and the payload that `EncodeValue` packs. -/
abbrev Stored := List Float64 × List UInt8

/-- The errors of the calls. -/
inductive WriteError where
  | ts (err : TsError)
  | numCount (given : Nat)
  /-- XOLU-TS017. -/
  | nan (index : Nat)
  | payloadSize (size : Nat)
  /-- XOLU-TS006. -/
  | batchTooLarge (events maxBatch : Nat)
  /-- An event of a batch. -/
  | event (index : Nat) (err : WriteError)
  /-- The reply to an event of a batch. -/
  | coalesced (err : WriteError)
  /-- An error of the store. -/
  | pebble
  /-- The context of the call is done. -/
  | cancelled
  | alreadyDeleting (id : UInt32)
  /-- The rollups of a timeline cannot be listed or deleted, or stand in the way. -/
  | rollups
deriving DecidableEq, Repr

/-- The error is about an event of a batch: it fails the checks of the call or, later, those of the
coalescer. -/
def WriteError.isInvalid : WriteError → Bool
  | .event _ _ => true
  | .coalesced err => err ≠ .pebble
  | _ => false

def validateEvent (e : Input) : Except WriteError Unit :=
  if e.event.timeline = 0 then .error (.ts .reservedID)
  else if e.event.time < 0 then .error (.ts .beforeEpoch)
  else if 7 < e.nums.length then .error (.numCount e.nums.length)
  else
    match e.nums.findIdx? fun v => v = .nan with
    | some i => .error (.nan i)
    | none => .ok ()

def encodeValue (nums : List Float64) (payload : List UInt8) : Except WriteError Stored :=
  if 7 < nums.length then .error (.numCount nums.length)
  else
    match nums.findIdx? fun v => v = .nan with
    | some i => .error (.nan i)
    | none =>
      if 65535 < payload.length then .error (.payloadSize payload.length)
      else .ok (nums, payload)

/-- The key and the value of an event. -/
def encodeEvent (dims : Nat) (e : Input) : Except WriteError (Key × Stored) :=
  match encodeKey e.event.timeline dims e.event.dims e.event.time with
  | .error err => .error (.ts err)
  | .ok key =>
    match encodeValue e.nums e.payload with
    | .error err => .error err
    | .ok val => .ok (key, val)

/-! ### Calls -/

/-- What is called; a writer with the mode that `coalEnabled` gives it. -/
inductive Job where
  | append (e : Input) (coal : Bool)
  | appendBatch (events : List Input) (maxBatch : Int) (coal : Bool)
  | deleteTimeline (id : UInt32)
  | close
deriving DecidableEq, Repr

/-- The instructions of the calls. -/
inductive Instr where
  /-- The checks of an event and, if it is to be written, its encoding. -/
  | check (index : Nat) (e : Input)
  /-- `startCoalescer`. -/
  | start
  /-- An event is handed over. -/
  | send (index : Nat) (e : Input)
  /-- The reply to an event. -/
  | await (index : Nat)
  /-- What was prepared is written, all of it or nothing. -/
  | write
  /-- `markDeleting`. -/
  | mark (id : UInt32)
  /-- `getForDelete`. -/
  | read (id : UInt32)
  /-- The rollups of the timeline are deleted. -/
  | rollups (id : UInt32)
  /-- `deleteDataRange`. -/
  | clear (id : UInt32)
  /-- `delete` of the registry. -/
  | unregister (id : UInt32)
  /-- `coalStop` is closed, if the coalescer was started. -/
  | halt
  /-- `coalDone`. -/
  | awaitExit
  /-- The store is closed. -/
  | closeStore
deriving DecidableEq, Repr

namespace Job

/-- The job writes through the coalescer. -/
def coal : Job → Bool
  | .append _ coal => coal
  | .appendBatch _ _ coal => coal
  | _ => false

/-- The job is to write events. -/
def isWriter : Job → Bool
  | .append .. => true
  | .appendBatch .. => true
  | _ => false

def isBatch : Job → Bool
  | .appendBatch .. => true
  | _ => false

/-- A batch is encoded before it is handed over, a single event is not. -/
def encodes : Job → Bool
  | .append _ coal => !coal
  | _ => true

/-- The events to write. -/
def events : Job → List Input
  | .append e _ => [e]
  | .appendBatch events _ _ => events
  | _ => []

/-- The instructions of a batch, one event after the other. -/
def handOver : Nat → List Input → List Instr
  | _, [] => []
  | i, e :: rest => .check i e :: .send i e :: handOver (i + 1) rest

/-- The checks of a batch. -/
def checks : Nat → List Input → List Instr
  | _, [] => []
  | i, e :: rest => .check i e :: checks (i + 1) rest

/-- The instructions of a job. -/
def program : Job → List Instr
  | .append e true => [.check 0 e, .start, .send 0 e, .await 0]
  | .append e false => [.check 0 e, .write]
  | .appendBatch events _ true =>
    .start :: (handOver 0 events ++ (List.range events.length).map .await)
  | .appendBatch events _ false => checks 0 events ++ [.write]
  | .deleteTimeline id => [.mark id, .read id, .rollups id, .clear id, .unregister id]
  | .close => [.halt, .awaitExit, .closeStore]

/-- The largest batch. -/
def limit (maxBatch : Int) : Nat := if maxBatch ≤ 0 then 5000 else maxBatch.toNat

/-- What a job returns at once: an empty batch has nothing to do, a large one is refused. -/
def atOnce : Job → Option (Option WriteError)
  | .appendBatch events maxBatch _ =>
    if events.length = 0 then some none
    else if limit maxBatch < events.length then
      some (some (.batchTooLarge events.length (limit maxBatch)))
    else none
  | _ => none

/-- The error of an event that is checked. -/
def checkError (job : Job) (i : Nat) (err : WriteError) : WriteError :=
  match job with
  | .appendBatch .. => .event i err
  | _ => err

/-- The error of a reply. -/
def replyError (job : Job) (err : WriteError) : WriteError :=
  match job with
  | .appendBatch .. => .coalesced err
  | _ => err

end Job

/-- An event that a call hands over, or writes. -/
structure Entry where
  call : Nat
  index : Nat
  input : Input
deriving DecidableEq, Repr

/-- An event with its key and value. -/
structure Pending where
  entry : Entry
  key : Key
  val : Stored
deriving DecidableEq, Repr

/-- A call: what it is, how far it is, what it has prepared to write, the dimensions of the timeline
it deletes, and what it has returned. -/
structure Call where
  job : Job
  pc : Nat
  prepared : List Pending
  dims : Nat
  result : Option (Option WriteError)
deriving DecidableEq, Repr

namespace Call

def begin (job : Job) : Call := ⟨job, 0, [], 0, job.atOnce⟩

/-- The next instruction; after the last one the call returns without an error. -/
def next (call : Call) : Call :=
  { call with
    pc := call.pc + 1
    result := if call.pc + 1 = call.job.program.length then some none else none }

def fail (call : Call) (err : WriteError) : Call := { call with result := some (some err) }

/-- The instruction the call is at. -/
def instr? (call : Call) : Option Instr :=
  if call.result.isSome then none else call.job.program[call.pc]?

end Call

/-! ### The site -/

/-- The goroutine that coalesces: not started, in its loop, told to stop, or gone. -/
inductive Coalescer where
  | idle
  | running
  | draining
  | exited
deriving DecidableEq, Repr

/-- What the parties share.  What was handed over, written and replied is kept. -/
structure WriteSite where
  store : PebbleStore Stored
  deleting : UInt32 → Bool
  coalescer : Coalescer
  /-- `coalCh`. -/
  queue : List Entry
  /-- The batch of the coalescer. -/
  buf : List Pending
  /-- `coalStop` is closed. -/
  stopping : Bool
  /-- The store is closed. -/
  closed : Bool
  calls : List Call
  sent : List Entry
  written : List Pending
  replies : List (Entry × Option WriteError)

/-- The steps; some may fail. -/
inductive SiteStep where
  | call (job : Job)
  /-- The next instruction of a call. -/
  | advance (c : Nat) (ok : Bool)
  /-- The context of a call is done. -/
  | cancel (c : Nat)
  /-- The coalescer takes an entry. -/
  | receive
  /-- The coalescer writes its batch, because of the ticker or because it is full. -/
  | flush (ok : Bool)
  /-- The coalescer sees that it has to stop. -/
  | stop
  /-- The coalescer has drained the channel, writes its batch and returns. -/
  | exit (ok : Bool)
deriving DecidableEq, Repr

/-- The capacity of `coalCh`. -/
def coalCapacity : Nat := 8192

namespace WriteSite

/-- A store that was just opened. -/
def opened (store : PebbleStore Stored) (coalescing : Bool) : WriteSite :=
  ⟨store, fun _ => false, if coalescing then .running else .idle, [], [], false, false, [], [], [],
    []⟩

section

variable (s : WriteSite)

/-- `get` of the registry, which hides a timeline that is being deleted. -/
def get (id : UInt32) : Option Nat :=
  if s.deleting id then none else s.store.registry id

def put (c : Nat) (call : Call) : WriteSite := { s with calls := s.calls.set c call }

/-- The marker of `markDeleting` is set, or cleared. -/
def setDeleting (id : UInt32) (b : Bool) : WriteSite :=
  { s with deleting := Function.update s.deleting id b }

def withStore (store : PebbleStore Stored) : WriteSite := { s with store }

/-- `startCoalescer`, which has an effect once. -/
def startCoalescer : WriteSite :=
  { s with coalescer := if s.coalescer = Coalescer.idle then .running else s.coalescer }

/-- An entry is sent into the channel. -/
def enqueue (x : Entry) : WriteSite :=
  { s with
    queue := s.queue ++ [x]
    sent := s.sent ++ [x] }

end

/-- One event is set, and counted. -/
def setPending (store : PebbleStore Stored) (p : Pending) : PebbleStore Stored :=
  store.record p.entry.input.event.timeline p.key p.val

section

variable (s : WriteSite)

/-- A batch is committed. -/
def commit (batch : List Pending) : WriteSite :=
  { s with
    store := batch.foldl setPending s.store
    written := s.written ++ batch }

/-- The checks of an event; a timeline that is not there, or going, is not defined. -/
def check (e : Input) : Except WriteError Nat :=
  match validateEvent e with
  | .error err => .error err
  | .ok () =>
    match s.get e.event.timeline with
    | none => .error (.ts (.notDefined e.event.timeline))
    | some dims =>
      if e.event.dims.length ≠ dims then
        .error (.ts (.dimsMismatch e.event.timeline dims e.event.dims.length))
      else .ok dims

/-- The checks of an event of a job, with the encoding where the job has it. -/
def examine (job : Job) (e : Input) : Except WriteError (Option (Key × Stored)) :=
  match s.check e with
  | .error err => .error err
  | .ok dims =>
    if job.encodes then
      match encodeEvent dims e with
      | .error err => .error err
      | .ok kv => .ok (some kv)
    else .ok none

/-- A commit can succeed. -/
def commits (ok : Bool) : Bool := ok && !s.closed

/-- The reply to an event of a call. -/
def reply? (c i : Nat) : Option (Option WriteError) :=
  (s.replies.find? fun r => r.1.call = c ∧ r.1.index = i).map Prod.snd

end

section Instructions

variable (s : WriteSite) (c : Nat) (call : Call)

/-- The checks of an event; in direct mode what is to be written is kept. -/
def checkEvent (i : Nat) (e : Input) : WriteSite :=
  match s.examine call.job e with
  | .error err => s.put c (call.fail (call.job.checkError i err))
  | .ok none => s.put c call.next
  | .ok (some (key, val)) =>
    s.put c { call.next with
      prepared := if call.job.coal then call.prepared
        else call.prepared ++ [⟨⟨c, i, e⟩, key, val⟩] }

/-- The send into the channel, which waits while the channel is full. -/
def sendEntry (i : Nat) (e : Input) : WriteSite :=
  if s.queue.length < coalCapacity then (s.enqueue ⟨c, i, e⟩).put c call.next else s

def awaitReply (i : Nat) : WriteSite :=
  match s.reply? c i with
  | none => s
  | some none => s.put c call.next
  | some (some err) => s.put c (call.fail (call.job.replyError err))

def writePrepared (ok : Bool) : WriteSite :=
  if s.commits ok then (s.commit call.prepared).put c call.next else s.put c (call.fail .pebble)

def markDeleting (id : UInt32) : WriteSite :=
  if id = 0 then s.put c (call.fail (.ts .rootTimeline))
  else if s.store.registry id = none then s.put c (call.fail (.ts (.notDefined id)))
  else if s.deleting id then s.put c (call.fail (.alreadyDeleting id))
  else (s.setDeleting id true).put c call.next

def getForDelete (id : UInt32) : WriteSite :=
  match s.store.registry id with
  | none => (s.setDeleting id false).put c (call.fail (.ts (.notDefined id)))
  | some dims => s.put c { call.next with dims }

def deleteRollups (ok : Bool) (id : UInt32) : WriteSite :=
  if ok then s.put c call.next else (s.setDeleting id false).put c (call.fail .rollups)

def clearData (ok : Bool) (id : UInt32) : WriteSite :=
  if s.commits ok then (s.withStore (s.store.deleteDataRange id call.dims)).put c call.next
  else (s.setDeleting id false).put c (call.fail .pebble)

/-- The definition is gone even if the registry cannot be saved. -/
def unregister (ok : Bool) (id : UInt32) : WriteSite :=
  if s.store.registry id = none then
    (s.setDeleting id false).put c (call.fail (.ts (.notDefined id)))
  else
    ((s.withStore (s.store.undefine id)).setDeleting id false).put c
      (if ok then call.next else call.fail .pebble)

/-- Closing the channel a second time panics. -/
def haltCoalescer : WriteSite :=
  if s.coalescer = .idle then s.put c call.next
  else if s.stopping then s
  else { s with stopping := true }.put c call.next

def awaitCoalescer : WriteSite :=
  if s.stopping ∧ s.coalescer ≠ .exited then s else s.put c call.next

/-- One instruction of a call; a call that has to wait stays as it is. -/
def exec (ok : Bool) : Instr → WriteSite
  | .check i e => s.checkEvent c call i e
  | .start => s.startCoalescer.put c call.next
  | .send i e => s.sendEntry c call i e
  | .await i => s.awaitReply c call i
  | .write => s.writePrepared c call ok
  | .mark id => s.markDeleting c call id
  | .read id => s.getForDelete c call id
  | .rollups id => s.deleteRollups c call ok id
  | .clear id => s.clearData c call ok id
  | .unregister id => s.unregister c call ok id
  | .halt => s.haltCoalescer c call
  | .awaitExit => s.awaitCoalescer c call
  | .closeStore => { s with closed := true }.put c call.next

end Instructions

section

variable (s : WriteSite)

/-- A reply is sent; each channel has room for it. -/
def answer (x : Entry) (r : Option WriteError) : WriteSite :=
  { s with replies := s.replies ++ [(x, r)] }

/-- What the coalescer makes of an entry.  In its loop it refuses one whose timeline is not defined;
when it drains the channel it goes on, with no dimensions. -/
def encodeEntry (x : Entry) : Except WriteError (Key × Stored) :=
  match s.get x.input.event.timeline with
  | none =>
    if s.coalescer = .running then .error (.ts (.notDefined x.input.event.timeline))
    else encodeEvent 0 x.input
  | some dims => encodeEvent dims x.input

/-- What is left in the channel. -/
def withQueue (queue : List Entry) : WriteSite := { s with queue }

/-- The coalescer is in one of its loops. -/
def alive : Prop := s.coalescer = .running ∨ s.coalescer = .draining
deriving Decidable

/-- The coalescer takes the next entry: it goes into the batch, or back with an error. -/
def receive : WriteSite :=
  match s.queue with
  | [] => s
  | x :: queue =>
    if s.alive then
      match s.encodeEntry x with
      | .error err => (s.withQueue queue).answer x (some err)
      | .ok (key, val) => { s.withQueue queue with buf := s.buf ++ [⟨x, key, val⟩] }
    else s

/-- `flush`: the batch is written and every entry of it gets the outcome. -/
def flush (ok : Bool) : WriteSite :=
  let s' := if s.commits ok then s.commit s.buf else s
  let outcome := if s.commits ok then none else some WriteError.pebble
  { s' with
    buf := []
    replies := s'.replies ++ s.buf.map fun p => (p.entry, outcome) }

/-- One step; what is not possible changes nothing. -/
def step : SiteStep → WriteSite
  | .call job => { s with calls := s.calls ++ [.begin job] }
  | .advance c ok =>
    match s.calls[c]? with
    | none => s
    | some call =>
      match call.instr? with
      | none => s
      | some instr => s.exec c call ok instr
  | .cancel c =>
    match s.calls[c]? with
    | none => s
    | some call =>
      match call.instr? with
      | some (.send _ _) => s.put c (call.fail .cancelled)
      | _ => s
  | .receive => s.receive
  | .flush ok => if s.coalescer = .running then s.flush ok else s
  | .stop =>
    if s.coalescer = .running ∧ s.stopping then { s with coalescer := .draining } else s
  | .exit ok =>
    if s.coalescer = .draining ∧ s.queue = [] then { s.flush ok with coalescer := .exited } else s

end

/-- An entry is encoded with the dimensions of its timeline, or with none. -/
theorem encodeEntry_eq_ok {s : WriteSite} {x : Entry} {kv : Key × Stored}
    (h : s.encodeEntry x = .ok kv) : ∃ dims, encodeEvent dims x.input = .ok kv ∧
      (dims ≠ 0 → s.get x.input.event.timeline = some dims) := by
  unfold encodeEntry at h
  rcases hget : s.get x.input.event.timeline with - | dims
  · rw [hget] at h
    split_ifs at h
    exact ⟨0, h, fun hne => absurd rfl hne⟩
  · rw [hget] at h
    exact ⟨dims, h, fun _ => rfl⟩

section Flush

variable (s : WriteSite) (ok : Bool)

@[simp] theorem flush_calls : (s.flush ok).calls = s.calls := by
  unfold flush
  split_ifs <;> rfl

@[simp] theorem flush_sent : (s.flush ok).sent = s.sent := by
  unfold flush
  split_ifs <;> rfl

@[simp] theorem flush_queue : (s.flush ok).queue = s.queue := by
  unfold flush
  split_ifs <;> rfl

@[simp] theorem flush_coalescer : (s.flush ok).coalescer = s.coalescer := by
  unfold flush
  split_ifs <;> rfl

@[simp] theorem flush_buf : (s.flush ok).buf = [] := rfl

/-- What the entries of a batch are told. -/
def outcome : Option WriteError := if s.commits ok then none else some .pebble

@[simp] theorem flush_replies :
    (s.flush ok).replies = s.replies ++ s.buf.map fun p => (p.entry, s.outcome ok) := by
  unfold flush outcome
  split_ifs <;> rfl

@[simp] theorem flush_store :
    (s.flush ok).store = if s.commits ok then s.buf.foldl setPending s.store else s.store := by
  unfold flush
  split_ifs <;> rfl

@[simp] theorem flush_written :
    (s.flush ok).written = s.written ++ if s.commits ok then s.buf else [] := by
  unfold flush
  split_ifs
  · rfl
  · exact (List.append_nil _).symm

end Flush

/-! ### What a step can do -/

/-- The checks of the call refuse its event, or the coalescer has. -/
def Refuses (s : WriteSite) (c : Nat) (call : Call) (instr : Instr) (err : WriteError) : Prop :=
  (∃ i e err', instr = .check i e ∧ s.examine call.job e = .error err') ∨
    ∃ i err', err = .coalesced err' ∧ s.reply? c i = some (some err')

/-- **What a step can do.**  A call that goes on keeps its job and has its instruction behind it. -/
inductive Outcome (s : WriteSite) : SiteStep → WriteSite → Prop where
  | same {a : SiteStep} : Outcome s a s
  | begin (job : Job) : Outcome s (.call job) { s with calls := s.calls ++ [.begin job] }
  /-- A call returns an error; that of an invalid event comes from the checks, or it is a reply. -/
  | fail {c : Nat} {ok : Bool} {call : Call} {instr : Instr} (err : WriteError)
      (deleting : UInt32 → Bool) (hcall : s.calls[c]? = some call)
      (hinstr : call.instr? = some instr)
      (hinvalid : call.job.isBatch → err.isInvalid → s.Refuses c call instr err) :
      Outcome s (.advance c ok) ({ s with deleting }.put c (call.fail err))
  | cancel {c : Nat} {call : Call} {i : Nat} {e : Input} (hcall : s.calls[c]? = some call)
      (hinstr : call.instr? = some (.send i e)) :
      Outcome s (.cancel c) (s.put c (call.fail .cancelled))
  | check {c : Nat} {ok : Bool} {call : Call} {i : Nat} {e : Input} (kv : Option (Key × Stored))
      (hcall : s.calls[c]? = some call) (hinstr : call.instr? = some (.check i e))
      (hexamine : s.examine call.job e = .ok kv) :
      Outcome s (.advance c ok) (s.put c { call.next with
        prepared := call.prepared ++
          if call.job.coal then [] else (kv.map fun kv => ⟨⟨c, i, e⟩, kv.1, kv.2⟩).toList })
  | start {c : Nat} {ok : Bool} {call : Call} (hcall : s.calls[c]? = some call)
      (hinstr : call.instr? = some .start) :
      Outcome s (.advance c ok) (s.startCoalescer.put c call.next)
  | send {c : Nat} {ok : Bool} {call : Call} {i : Nat} {e : Input} (hcall : s.calls[c]? = some call)
      (hinstr : call.instr? = some (.send i e)) (hroom : s.queue.length < coalCapacity) :
      Outcome s (.advance c ok) ((s.enqueue ⟨c, i, e⟩).put c call.next)
  | await {c : Nat} {ok : Bool} {call : Call} {i : Nat} (hcall : s.calls[c]? = some call)
      (hinstr : call.instr? = some (.await i)) (hreply : s.reply? c i = some none) :
      Outcome s (.advance c ok) (s.put c call.next)
  | write {c : Nat} {ok : Bool} {call : Call} (hcall : s.calls[c]? = some call)
      (hinstr : call.instr? = some .write) (hcommits : s.commits ok) :
      Outcome s (.advance c ok) ((s.commit call.prepared).put c call.next)
  /-- The other instructions of a deletion and of `Close`. -/
  | other {c : Nat} {ok : Bool} {call : Call} {instr : Instr} (deleting : UInt32 → Bool)
      (stopping closed : Bool) (dims : Nat) (hcall : s.calls[c]? = some call)
      (hinstr : call.instr? = some instr) (hread : ∀ id, instr = .read id →
        s.store.registry id = some dims) (hkeep : (∀ id, instr ≠ .read id) → dims = call.dims)
      (hkind : instr ∈ [.halt, .awaitExit, .closeStore] ∨
        ∃ id, instr ∈ [.mark id, .read id, .rollups id]) :
      Outcome s (.advance c ok)
        ({ s with deleting, stopping, closed }.put c { call.next with dims })
  | clear {c : Nat} {ok : Bool} {call : Call} {id : UInt32} (hcall : s.calls[c]? = some call)
      (hinstr : call.instr? = some (.clear id)) (hcommits : s.commits ok) :
      Outcome s (.advance c ok)
        ((s.withStore (s.store.deleteDataRange id call.dims)).put c call.next)
  | unregister {c : Nat} {call : Call} {id : UInt32} (ok : Bool) (hcall : s.calls[c]? = some call)
      (hinstr : call.instr? = some (.unregister id)) :
      Outcome s (.advance c ok) (((s.withStore (s.store.undefine id)).setDeleting id false).put c
        (if ok then call.next else call.fail .pebble))
  | refuse {x : Entry} {queue : List Entry} (err : WriteError) (hqueue : s.queue = x :: queue)
      (halive : s.alive) (hrefuse : s.encodeEntry x = .error err) :
      Outcome s .receive ((s.withQueue queue).answer x (some err))
  | accept {x : Entry} {queue : List Entry} (key : Key) (val : Stored)
      (hqueue : s.queue = x :: queue) (halive : s.alive)
      (hencode : s.encodeEntry x = .ok (key, val)) :
      Outcome s .receive { s.withQueue queue with buf := s.buf ++ [⟨x, key, val⟩] }
  | flush (ok : Bool) (hrunning : s.coalescer = .running) : Outcome s (.flush ok) (s.flush ok)
  | stop (hrunning : s.coalescer = .running) (hstop : s.stopping = true) :
      Outcome s .stop { s with coalescer := .draining }
  | exit (ok : Bool) (hdraining : s.coalescer = .draining) (hqueue : s.queue = []) :
      Outcome s (.exit ok) { s.flush ok with coalescer := .exited }

variable {s : WriteSite}

theorem calls_put {c : Nat} {call : Call} (hcall : s.calls[c]? = some call) (call' : Call)
    (c' : Nat) : (s.put c call').calls[c']? = if c' = c then some call' else s.calls[c']? := by
  have hlt : c < s.calls.length := (List.getElem?_eq_some_iff.mp hcall).1
  rw [put, List.getElem?_set]
  split_ifs with h h' h'
  · rfl
  · exact absurd h.symm h'
  · exact absurd h'.symm h
  · rfl

/-- A call can go on with its instruction. -/
def ready (s : WriteSite) (c : Nat) : Instr → Prop
  | .send _ _ => s.queue.length < coalCapacity
  | .await i => s.reply? c i ≠ none
  | .halt => s.coalescer = .idle ∨ s.stopping = false
  | .awaitExit => ¬ (s.stopping ∧ s.coalescer ≠ .exited)
  | _ => True

/-- The call has returned, or an instruction more is behind it. -/
def Proceeds (c : Nat) (call : Call) (s' : WriteSite) : Prop :=
  ∃ call', s'.calls[c]? = some call' ∧
    (call'.result.isSome ∨ call'.job = call.job ∧ call'.pc = call.pc + 1)

/-- The step of a call that goes on. -/
def GoesOn (s : WriteSite) (c : Nat) (call : Call) (ok : Bool) (s' : WriteSite) : Prop :=
  Outcome s (.advance c ok) s' ∧ Proceeds c call s'

/-- **What an instruction does** for a call that can go on. -/
theorem goesOn_exec {c : Nat} {call : Call} {instr : Instr} (ok : Bool)
    (hcall : s.calls[c]? = some call) (hinstr : call.instr? = some instr)
    (hready : s.ready c instr) : GoesOn s c call ok (s.exec c call ok instr) := by
  have hput : ∀ {s₁ : WriteSite} {call' : Call}, s₁.calls = s.calls →
      (call'.result.isSome ∨ call'.job = call.job ∧ call'.pc = call.pc + 1) →
      Proceeds c call (s₁.put c call') := by
    intro s₁ call' hcalls hcall'
    refine ⟨call', ?_, hcall'⟩
    rw [calls_put (hcalls ▸ hcall), if_pos rfl]
  have hnext : ∀ {s₁ : WriteSite}, s₁.calls = s.calls → Proceeds c call (s₁.put c call.next) :=
    fun hcalls => hput hcalls (.inr ⟨rfl, rfl⟩)
  -- errors that are not about an event of a batch
  have hfail : ∀ (deleting : UInt32 → Bool) (err : WriteError), err.isInvalid = false →
      GoesOn s c call ok ({ s with deleting }.put c (call.fail err)) :=
    fun deleting err herr => ⟨.fail err deleting hcall hinstr fun _ hinvalid =>
      absurd hinvalid (ne_true_of_eq_false herr), hput rfl (.inl rfl)⟩
  have hother : ∀ deleting stopping closed, _ → _ → _ →
      GoesOn s c call ok ({ s with deleting, stopping, closed }.put c call.next) :=
    fun deleting stopping closed hread hkeep hkind => ⟨@Outcome.other s c ok call instr deleting
      stopping closed call.dims hcall hinstr hread hkeep hkind, hnext rfl⟩
  cases instr with
  | check i e =>
    rw [exec, checkEvent]
    rcases hexamine : s.examine call.job e with err | kv
    · exact ⟨.fail _ s.deleting hcall hinstr fun _ _ => .inl ⟨i, e, err, rfl, hexamine⟩,
        hput rfl (.inl rfl)⟩
    · have := @Outcome.check s c ok call i e kv hcall hinstr hexamine
      rcases kv with - | ⟨key, val⟩
      · rw [Option.map_none, Option.toList_none, ite_self, List.append_nil] at this
        exact ⟨this, hnext rfl⟩
      · refine ⟨?_, hput rfl (.inr ⟨rfl, rfl⟩)⟩
        cases hcoal : call.job.coal
        · rwa [hcoal] at this
        · rwa [hcoal, if_pos rfl, List.append_nil] at this
  | start => exact ⟨.start hcall hinstr, hnext rfl⟩
  | send i e =>
    rw [exec, sendEntry, if_pos (show s.queue.length < coalCapacity from hready)]
    exact ⟨.send hcall hinstr hready, hnext rfl⟩
  | await i =>
    rw [exec, awaitReply]
    rcases hreply : s.reply? c i with - | - | err
    · exact absurd hreply hready
    · exact ⟨.await hcall hinstr hreply, hnext rfl⟩
    · refine ⟨.fail _ s.deleting hcall hinstr fun hbatch _ => .inr ⟨i, err, ?_, hreply⟩,
        hput rfl (.inl rfl)⟩
      cases hjob : call.job with
      | appendBatch events maxBatch coal => rfl
      | append | deleteTimeline | close =>
        rw [hjob] at hbatch
        cases hbatch
  | write =>
    rw [exec, writePrepared]
    split_ifs with hcommits
    · exact ⟨.write hcall hinstr hcommits, hnext rfl⟩
    · exact hfail s.deleting .pebble rfl
  | mark id =>
    rw [exec, markDeleting]
    split_ifs
    · exact hfail s.deleting _ rfl
    · exact hfail s.deleting _ rfl
    · exact hfail s.deleting _ rfl
    · exact hother _ s.stopping s.closed (by simp) (by simp) (.inr ⟨id, by simp⟩)
  | read id =>
    rw [exec, getForDelete]
    rcases hreg : s.store.registry id with - | dims
    · exact hfail _ _ rfl
    · exact ⟨.other s.deleting s.stopping s.closed dims hcall hinstr (by simpa using hreg)
        (by simp) (.inr ⟨id, by simp⟩), hput rfl (.inr ⟨rfl, rfl⟩)⟩
  | rollups id =>
    rw [exec, deleteRollups]
    split_ifs
    · exact hother s.deleting s.stopping s.closed (by simp) (by simp) (.inr ⟨id, by simp⟩)
    · exact hfail _ _ rfl
  | clear id =>
    rw [exec, clearData]
    split_ifs with hcommits
    · exact ⟨.clear hcall hinstr hcommits, hnext rfl⟩
    · exact hfail _ _ rfl
  | unregister id =>
    rw [exec, unregister]
    by_cases hgone : s.store.registry id = none
    · rw [if_pos hgone]
      exact hfail _ _ rfl
    · rw [if_neg hgone]
      refine ⟨.unregister ok hcall hinstr, hput rfl ?_⟩
      cases ok with
      | true => exact .inr ⟨rfl, rfl⟩
      | false => exact .inl rfl
  | halt =>
    rw [exec, haltCoalescer]
    split_ifs with hidle hstopping
    · exact hother s.deleting s.stopping s.closed (by simp) (by simp) (.inl (by simp))
    · exact absurd (hready.resolve_left hidle) (ne_false_of_eq_true hstopping)
    · exact hother s.deleting true s.closed (by simp) (by simp) (.inl (by simp))
  | awaitExit =>
    rw [exec, awaitCoalescer, if_neg hready]
    exact hother s.deleting s.stopping s.closed (by simp) (by simp) (.inl (by simp))
  | closeStore => exact hother s.deleting s.stopping true (by simp) (by simp) (.inl (by simp))

/-- A call that cannot go on waits, and nothing changes. -/
theorem exec_of_not_ready {c : Nat} {instr : Instr} (call : Call) (ok : Bool)
    (hnot : ¬ s.ready c instr) : s.exec c call ok instr = s := by
  cases instr with
  | send i e => exact if_neg hnot
  | await i => rw [exec, awaitReply, not_not.mp hnot]
  | halt =>
    obtain ⟨hidle, hstopping⟩ := not_or.mp hnot
    rw [exec, haltCoalescer, if_neg hidle, if_pos (Bool.eq_true_of_not_eq_false hstopping)]
  | awaitExit => exact if_pos (not_not.mp hnot)
  | _ => exact absurd trivial hnot

theorem step_advance {c : Nat} {call : Call} {instr : Instr} (ok : Bool)
    (hcall : s.calls[c]? = some call) (hinstr : call.instr? = some instr) :
    s.step (.advance c ok) = s.exec c call ok instr := by
  rw [step, hcall]
  simp only [hinstr]

theorem receive_outcome (s : WriteSite) : Outcome s .receive s.receive := by
  unfold receive
  rcases hqueue : s.queue with - | ⟨x, queue⟩
  · exact .same
  simp only
  split_ifs with halive
  · rcases hencode : s.encodeEntry x with err | ⟨key, val⟩
    · exact .refuse err hqueue halive hencode
    · exact .accept key val hqueue halive hencode
  · exact .same

theorem step_outcome (s : WriteSite) (a : SiteStep) : Outcome s a (s.step a) := by
  cases a with
  | call job => exact .begin job
  | advance c ok =>
    rcases hcall : s.calls[c]? with - | call
    · rw [step, hcall]
      exact .same
    rcases hinstr : call.instr? with - | instr
    · rw [step, hcall]
      simp only [hinstr]
      exact .same
    rw [step_advance ok hcall hinstr]
    by_cases hready : s.ready c instr
    · exact (goesOn_exec ok hcall hinstr hready).1
    · rw [exec_of_not_ready call ok hready]
      exact .same
  | cancel c =>
    rw [step]
    rcases hcall : s.calls[c]? with - | call
    · exact .same
    simp only
    rcases hinstr : call.instr? with - | instr
    · exact .same
    cases instr with
    | send i e => exact .cancel hcall hinstr
    | check | start | await | write | mark | read | rollups | clear | unregister | halt | awaitExit
      | closeStore => exact .same
  | receive => exact receive_outcome s
  | flush ok =>
    rw [step]
    split_ifs with hrunning
    · exact .flush ok hrunning
    · exact .same
  | stop =>
    rw [step]
    split_ifs with hstop
    · exact .stop hstop.1 hstop.2
    · exact .same
  | exit ok =>
    rw [step]
    split_ifs with hexit
    · exact .exit ok hexit.1 hexit.2
    · exact .same

/-! ### A small site -/

/-- Timeline 1 has one dimension. -/
def thermometer (id : UInt32) : Option Nat := if id = 1 then some 1 else none

theorem thermometer_zero : thermometer 0 = none := rfl

/-- A store with one timeline and no events. -/
def oneStore : PebbleStore Stored := .init thermometer thermometer_zero

/-- A reading of timeline 1. -/
def reading (time : Int) : Input := ⟨⟨1, [7], time⟩, [.num 20], []⟩

/-- A run of the site with that store. -/
def oneRun (steps : List SiteStep) : WriteSite := Runs.run step (opened oneStore false) steps

end WriteSite

end Xolu.Timeseries
