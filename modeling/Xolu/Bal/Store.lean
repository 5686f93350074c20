/-
# The ledger tables and the two-leg transfer (pkg/bal/store.go)

`Tables` is the content of the four SQL tables.  A transaction is a function from
tables to a result and the tables as written so far; the writes of a transaction that
fails half way are still in that second component, and it is `transfer` that commits or
rolls back.

The debit and the credit are one guarded UPDATE with different bounds
(`guardedUpdate`): a row is written only if the account is postable, the bound holds and
the account's policy admits the instant, and the written row comes back through
RETURNING.  `transferInTx_ok` says once everything a successful transfer did; the later
modules use it and do not unfold the transfer again.
-/
import Xolu.Lib.Num64
import Xolu.Lib.Keyed
import Xolu.Chronicle.Seal
import Xolu.Dxp.Cache
import Xolu.Bal.Model

namespace Xolu.Bal

open List Num64 Instant Chronicle Dxp Keyed Prod

/-! ### Tables -/

/-- A row of the accounts table. -/
structure Account where
  key : Nat
  id : String
  unit : String
  scale : Nat
  floor : Int
  ceiling : Option Int
  postable : Bool
  policy : TemporalPolicy
deriving DecidableEq, Repr

/-- A row of the balances table. -/
structure Balance where
  key : Nat
  value : Int
  version : Nat
deriving DecidableEq, Repr

/-- A row of the journal. -/
structure Entry where
  entryId : Nat
  transferId : String
  key : Nat
  amount : Int
  previousBalance : Int
  currentBalance : Int
  version : Nat
  memo : Option String
  instant : Int
deriving DecidableEq, Repr

/-- A row of the checkpoints table. -/
structure Checkpoint where
  key : Nat
  atUnix : Int
  balance : Sql
  entryId : Nat
  stale : Bool
deriving DecidableEq, Repr

/-- The four tables; `seq` is the largest entry id ever given (AUTOINCREMENT). -/
structure Tables where
  accounts : List Account := []
  balances : List Balance := []
  journal : List Entry := []
  checkpoints : List Checkpoint := []
  seq : Nat := 0
deriving DecidableEq, Repr

/-- Which bound a refusal names. -/
inductive Side where
  | floor
  | ceiling
deriving DecidableEq, Repr

/-- The errors of the store, with the data their messages print. -/
inductive BalError where
  | bounds (account : String) (side : Side)
  | unknownAccount (account : String)
  | sealedPeriod (at' frontier : Int)
  | amountScale (detail : String)
  | notPostable (account : String)
  | backdated (account : String) (at' : Int)
  | duplicateAccount (account : String)
  | definition (e : DefError)
  | keySpaceExhausted
  /-- The driver cannot scan a RETURNING value that has become a double. -/
  | realBalance
  /-- The engine's "integer overflow" error of SUM. -/
  | integerOverflow
  /-- A seal or prune on a store without a sealer. -/
  | noSealer (op : String)
  /-- A dxp call that the adapter refuses before reading any table. -/
  | participant (detail : String)
deriving DecidableEq, Repr

namespace Tables

variable (t : Tables)

/-- `SELECT ... FROM accounts WHERE account_id = ?`. -/
def account? (id : String) : Option Account := t.accounts.find? (·.id == id)

/-- The journal has an entry of the account dated after `at'`. -/
def laterEntry (key : Nat) (at' : Int) : Bool :=
  t.journal.any fun j => j.key == key && decide (at' < j.instant)

/-- `diagnoseRefusal`: why a guarded UPDATE matched no row. -/
def diagnoseRefusal (id : String) (side : Side) (at' : Int) : BalError :=
  match t.account? id with
  | none => .unknownAccount id
  | some a =>
    if !a.postable then .notPostable id
    else if a.policy != .backdated && t.laterEntry a.key at' then .backdated id at'
    else .bounds id side

/-- The WHERE clause of both legs, up to the bound: the row of the postable account,
and the account's rule on arrival order. -/
def admits (id : String) (at' : Int) (bound : Account → Int → Bool) (b : Balance) : Bool :=
  match t.account? id with
  | none => false
  | some a =>
    a.postable && b.key == a.key && bound a b.value &&
      (a.policy == .backdated || !t.laterEntry a.key at')

/-- The balances table with one row overwritten. -/
def setBalance (row : Balance) : Tables := { t with balances := put Balance.key t.balances row }

/-- One guarded UPDATE ... RETURNING of a leg: `move` is the new value. -/
def guardedUpdate (id : String) (side : Side) (bound : Account → Int → Bool)
    (move : Int → Sql) (at' : Int) : Except BalError Balance × Tables :=
  match t.balances.find? (t.admits id at' bound) with
  | none => (.error (t.diagnoseRefusal id side at'), t)
  | some b =>
    match move b.value with
    -- the UPDATE has run, but the scan of RETURNING fails
    | .real _ => (.error .realBalance, t)
    | .int v => (.ok ⟨b.key, v, b.version + 1⟩, t.setBalance ⟨b.key, v, b.version + 1⟩)

end Tables

/-- `value - ? - ? >= floor`. -/
def floorBound (amount claimed : Int) (a : Account) (value : Int) : Bool :=
  a.floor ≤ (((Sql.int value).sub (.int amount)).sub (.int claimed)).val

/-- `value + ? + ? <= COALESCE(ceiling, 9223372036854775807)`. -/
def ceilingBound (amount claimed : Int) (a : Account) (value : Int) : Bool :=
  (((Sql.int value).add (.int amount)).add (.int claimed)).val ≤ a.ceiling.getD 9223372036854775807

/-- The debit leg. -/
def debit (id : String) (amount claimed at' : Int) (t : Tables) :
    Except BalError Balance × Tables :=
  t.guardedUpdate id .floor (floorBound amount claimed) (fun v => (Sql.int v).sub (.int amount)) at'

/-- The credit leg. -/
def credit (id : String) (amount claimed at' : Int) (t : Tables) :
    Except BalError Balance × Tables :=
  t.guardedUpdate id .ceiling (ceilingBound amount claimed)
    (fun v => (Sql.int v).add (.int amount)) at'

/-- The arguments of a transfer. -/
structure Transfer where
  transferId : String
  src : String
  dst : String
  amount : Int
  memo : String
  instant : Int
deriving DecidableEq, Repr

/-- The journal row of one leg, from the balance row RETURNING gave.  Taking the amount
off again gives the value before the update, so the difference cannot wrap. -/
def Transfer.entry (x : Transfer) (entryId : Nat) (row : Balance) (amount : Int) : Entry where
  entryId := entryId
  transferId := x.transferId
  key := row.key
  amount := amount
  previousBalance := row.value - amount
  currentBalance := row.value
  version := row.version
  memo := if x.memo = "" then none else some x.memo
  instant := x.instant

/-- `SET balance = balance + ? WHERE account_key = ? AND at_unix >= ?`, on one row. -/
def Checkpoint.adjust (key : Nat) (delta atUnix : Int) (c : Checkpoint) : Checkpoint :=
  if c.key = key ∧ atUnix ≤ c.atUnix then
    { c with balance := (c.balance.add (.int delta)).column }
  else c

/-- The two journal rows of a transfer, numbered after `seq`. -/
def Transfer.entries (x : Transfer) (seq : Nat) (src dst : Balance) : List Entry :=
  [x.entry (seq + 1) src (-x.amount), x.entry (seq + 2) dst x.amount]

/-- The writes after both guarded updates: two journal rows, then the checkpoint
deltas of the two accounts. -/
def Transfer.record (x : Transfer) (src dst : Balance) (t : Tables) : Tables :=
  { t with
    journal := t.journal ++ x.entries t.seq src dst
    checkpoints := (t.checkpoints.map
      (Checkpoint.adjust src.key (-x.amount) (unix x.instant))).map
        (Checkpoint.adjust dst.key x.amount (unix x.instant))
    seq := t.seq + 2 }

/-- `transferInTx`: the guarded core, inside a transaction the caller commits. -/
def transferInTx (sealer : Option Sealer) (x : Transfer) (srcClaimed dstClaimed : Int)
    (t : Tables) : Except BalError (Nat × Nat) × Tables :=
  -- a sealed period refuses before any statement runs
  match sealer.filter (·.sealed x.instant) with
  | some s => (.error (.sealedPeriod x.instant s.frontier), t)
  | none =>
    match debit x.src x.amount srcClaimed x.instant t with
    | (.error e, t) => (.error e, t)
    | (.ok src, t) =>
      match credit x.dst x.amount dstClaimed x.instant t with
      | (.error e, t) => (.error e, t)
      | (.ok dst, t) => (.ok (src.key, dst.key), x.record src dst t)

/-- Run a transaction: commit its writes if it succeeds, otherwise roll back. -/
def atomically {α : Type} (tx : Tables → Except BalError α × Tables) (t : Tables) :
    Except BalError α × Tables :=
  match tx t with
  | (.ok a, t') => (.ok a, t')
  | (.error e, _) => (.error e, t)

/-! ### The store -/

/-- The handles of one `Store` value. -/
structure Store where
  tenant : String
  claims : Option MemCache
  sealer : Option Sealer

def dxpResource (accountId : String) : String := "acct:" ++ accountId

/-- `pessimisticClaimSum`, in Go's wrapping arithmetic. -/
def pessimisticClaimSum (cache : MemCache) (now : Int) (tenant resource : String) : Int :=
  (cache.claimsFor now tenant "bal" resource).foldl
    (fun sum c => if c.weight = .pessimistic then wrap (sum + c.amount) else sum) 0

/-- The claim sum a store's guards use: zero without a cache. -/
def Store.claimed (s : Store) (now : Int) (accountId : String) : Int :=
  match s.claims with
  | none => 0
  | some cache => pessimisticClaimSum cache now s.tenant (dxpResource accountId)

/-- `Transfer`, up to the rollup deltas that follow the commit. -/
def Store.transfer (s : Store) (now : Int) (x : Transfer) (t : Tables) :
    Except BalError (Nat × Nat) × Tables :=
  -- both checks come before the lock and the transaction
  if x.amount ≤ 0 then (.error (.amountScale "transfer amount must be positive"), t)
  else if x.src = x.dst then
    (.error (.amountScale "transfer requires two distinct accounts"), t)
  else
    atomically (transferInTx s.sealer x (s.claimed now x.src) (s.claimed now x.dst)) t

def maxAccountKey : Nat := 0xFFFFFFFF

/-- The account a definition asks for, under its allocated key. -/
def AccountDef.toAccount (d : AccountDef) (key : Nat) (policy : TemporalPolicy) : Account where
  key := key
  id := d.id
  unit := d.unit
  scale := d.scale
  floor := d.floor
  ceiling := d.ceiling
  postable := d.postable
  policy := policy

/-- `COALESCE(MAX(account_key), 0) + 1`. -/
def Tables.nextKey (t : Tables) : Nat := (t.accounts.map Account.key).foldl max 0 + 1

/-- `DefineAccount`: the account and its zero balance row. -/
def defineAccount (d : AccountDef) (t : Tables) : Except BalError Nat × Tables :=
  match d.validate with
  | .error e => (.error (.definition e), t)
  | .ok () =>
    match parsePolicy d.policy with
    | none => (.error (.definition (.unknownPolicy d.policy)), t)
    | some policy =>
      if t.accounts.any (·.id == d.id) then (.error (.duplicateAccount d.id), t)
      else if maxAccountKey < t.nextKey then (.error .keySpaceExhausted, t)
      else
        (.ok t.nextKey, { t with
          accounts := t.accounts ++ [d.toAccount t.nextKey policy]
          balances := t.balances ++ [⟨t.nextKey, 0, 0⟩] })

/-! ### What the operations did -/

section Spec

variable {t t' : Tables} {id : String} {at' : Int}

theorem Tables.account?_spec {a : Account} (h : t.account? id = some a) :
    a ∈ t.accounts ∧ a.id = id :=
  ⟨mem_of_find?_eq_some h, by simpa using find?_some h⟩

/-- The row `b` of account `a` passed the WHERE clause of a leg. -/
structure Leg (t : Tables) (id : String) (bound : Account → Int → Bool) (at' : Int)
    (a : Account) (b : Balance) : Prop where
  account : t.account? id = some a
  postable : a.postable = true
  row : b ∈ t.balances
  key : b.key = a.key
  bound : bound a b.value = true
  arrival : a.policy = .backdated ∨ t.laterEntry a.key at' = false

variable {bound : Account → Int → Bool}

theorem Tables.admits_iff {b : Balance} (hb : b ∈ t.balances) :
    t.admits id at' bound b = true ↔ ∃ a, Leg t id bound at' a b := by
  unfold Tables.admits
  constructor
  · intro h
    split at h
    · cases h
    · next a ha =>
      simp only [Bool.and_eq_true, Bool.or_eq_true, beq_iff_eq, Bool.not_eq_true'] at h
      obtain ⟨⟨⟨hpost, hkey⟩, hbound⟩, harr⟩ := h
      exact ⟨a, ha, hpost, hb, hkey, hbound, harr⟩
  · rintro ⟨a, h⟩
    rw [h.account]
    simp only [Bool.and_eq_true, Bool.or_eq_true, beq_iff_eq, Bool.not_eq_true']
    exact ⟨⟨⟨h.postable, h.key⟩, h.bound⟩, h.arrival⟩

theorem guardedUpdate_ok {side : Side} {move : Int → Sql}
    {row : Balance} (h : t.guardedUpdate id side bound move at' = (.ok row, t')) :
    ∃ a b v, Leg t id bound at' a b ∧ move b.value = .int v ∧
      row = ⟨b.key, v, b.version + 1⟩ ∧ t' = t.setBalance ⟨b.key, v, b.version + 1⟩ := by
  unfold Tables.guardedUpdate at h
  split at h
  · cases h
  next b hfind =>
  -- the row that was found passed the WHERE clause
  have hmem := mem_of_find?_eq_some hfind
  obtain ⟨a, hleg⟩ := (Tables.admits_iff hmem).mp (find?_some hfind)
  split at h
  · cases h
  next v hv =>
  simp only [mk.injEq, Except.ok.injEq] at h
  exact ⟨a, b, v, hleg, hv, h.1.symm, h.2.symm⟩

/-- A balance row after the debit leg. -/
def Transfer.debited (x : Transfer) (r : Balance) : Balance :=
  ⟨r.key, r.value - x.amount, r.version + 1⟩

/-- A balance row after the credit leg. -/
def Transfer.credited (x : Transfer) (r : Balance) : Balance :=
  ⟨r.key, r.value + x.amount, r.version + 1⟩

variable {x : Transfer}

theorem Transfer.mem_entries {seq : Nat} {src dst : Balance} {e : Entry} :
    e ∈ x.entries seq src dst ↔
      e = x.entry (seq + 1) src (-x.amount) ∨ e = x.entry (seq + 2) dst x.amount := by
  simp [Transfer.entries]

/-- Both rows of a transfer are dated by it. -/
theorem Transfer.instant_of_mem_entries {seq : Nat} {src dst : Balance} {e : Entry}
    (h : e ∈ x.entries seq src dst) : e.instant = x.instant := by
  rcases Transfer.mem_entries.mp h with rfl | rfl <;> rfl

@[simp] theorem Transfer.debited_key (x : Transfer) (r : Balance) : (x.debited r).key = r.key := rfl

@[simp] theorem Transfer.credited_key (x : Transfer) (r : Balance) :
    (x.credited r).key = r.key := rfl

/-- A transfer of `x` against the given claim sums took account `a` (row `ra`) and
account `b` (row `rb`) from the tables `t` to `t'`. -/
structure Posted (t : Tables) (x : Transfer) (srcClaimed dstClaimed : Int)
    (a : Account) (ra : Balance) (b : Account) (rb : Balance) (t' : Tables) : Prop where
  debited : Leg t x.src (floorBound x.amount srcClaimed) x.instant a ra
  srcRange : InRange (ra.value - x.amount)
  credited : Leg (t.setBalance (x.debited ra)) x.dst (ceilingBound x.amount dstClaimed)
    x.instant b rb
  dstRange : InRange (rb.value + x.amount)
  tables : t' = x.record (x.debited ra) (x.credited rb)
    ((t.setBalance (x.debited ra)).setBalance (x.credited rb))

/-- **Everything a successful `transferInTx` did.** -/
theorem transferInTx_ok {sealer : Option Sealer} {cs cd : Int} {ks : Nat × Nat}
    (h : transferInTx sealer x cs cd t = (.ok ks, t')) :
    (∀ s, sealer = some s → s.sealed x.instant = false) ∧
      ∃ a ra b rb, Posted t x cs cd a ra b rb t' ∧ ks = (a.key, b.key) := by
  unfold transferInTx at h
  split at h
  · cases h
  next hsealed =>
  split at h
  · cases h
  next src t₁ hdebit =>
  split at h
  · cases h
  next dst t₂ hcredit =>
  obtain ⟨a, ra, v, hleg, hv, rfl, rfl⟩ := guardedUpdate_ok hdebit
  obtain ⟨b, rb, w, hleg', hw, rfl, rfl⟩ := guardedUpdate_ok hcredit
  -- RETURNING gave integers, so neither leg has overflowed
  obtain ⟨rfl, hrange⟩ := Sql.sub_eq_int hv
  obtain ⟨rfl, hrange'⟩ := Sql.add_eq_int hw
  simp only [mk.injEq, Except.ok.injEq] at h
  refine ⟨?_, a, ra, b, rb, ⟨hleg, hrange, hleg', hrange', h.2.symm⟩, ?_⟩
  · rintro s rfl
    simpa using hsealed
  · rw [← h.1, hleg.key, hleg'.key]

theorem atomically_ok {α : Type} {tx : Tables → Except BalError α × Tables} {r : α} :
    atomically tx t = (.ok r, t') ↔ tx t = (.ok r, t') := by
  unfold atomically
  split
  · next h => rw [h]
  · next h => simp [h]

/-- A transaction that fails is rolled back. -/
theorem atomically_error {α : Type} {tx : Tables → Except BalError α × Tables} {e : BalError}
    (h : atomically tx t = (.error e, t')) : t' = t := by
  unfold atomically at h
  split at h
  · cases h
  · exact (mk.inj h).2.symm

theorem transfer_spec {s : Store} {now : Int} {r : Except BalError (Nat × Nat)}
    (h : s.transfer now x t = (r, t')) :
    match r with
    | .error _ => t' = t
    | .ok ks => 0 < x.amount ∧ x.src ≠ x.dst ∧
      transferInTx s.sealer x (s.claimed now x.src) (s.claimed now x.dst) t = (.ok ks, t') := by
  unfold Store.transfer at h
  split at h
  · cases h
    rfl
  next hpos =>
  split at h
  · cases h
    rfl
  next hne =>
  cases r with
  | error e => exact atomically_error h
  | ok ks => exact ⟨not_le.mp hpos, hne, atomically_ok.mp h⟩

/-- Everything `defineAccount` did. -/
theorem defineAccount_spec {d : AccountDef} {r : Except BalError Nat}
    (h : defineAccount d t = (r, t')) :
    match r with
    | .error _ => t' = t
    | .ok k => d.validate = .ok () ∧ (∀ a ∈ t.accounts, a.id ≠ d.id) ∧ k = t.nextKey ∧
      ∃ policy, parsePolicy d.policy = some policy ∧
        t' = { t with
          accounts := t.accounts ++ [d.toAccount t.nextKey policy]
          balances := t.balances ++ [⟨t.nextKey, 0, 0⟩] } := by
  unfold defineAccount at h
  split at h
  · cases h
    rfl
  next hvalid =>
  split at h
  · cases h
    rfl
  next policy hpolicy =>
  split at h
  · cases h
    rfl
  next hfresh =>
  split at h
  · cases h
    rfl
  cases h
  refine ⟨hvalid, ?_, rfl, policy, hpolicy, rfl⟩
  intro a ha heq
  exact hfresh (any_eq_true.mpr ⟨a, ha, by simpa using heq⟩)

/-- What `DefineAccount` checks: a valid definition with a known policy, an id that is
free, and a key left for it. -/
def AccountDef.Allowed (d : AccountDef) (t : Tables) : Prop :=
  d.validate = .ok () ∧ (parsePolicy d.policy).isSome = true ∧
    (∀ a ∈ t.accounts, a.id ≠ d.id) ∧ t.nextKey ≤ maxAccountKey
deriving Decidable

/-- `DefineAccount` succeeds iff its checks pass. -/
theorem defineAccount_isOk_iff (d : AccountDef) (t : Tables) :
    (defineAccount d t).1.isOk = true ↔ d.Allowed t := by
  have hany : t.accounts.any (·.id == d.id) = false ↔ ∀ a ∈ t.accounts, a.id ≠ d.id := by
    simp
  unfold defineAccount AccountDef.Allowed
  rw [← hany]
  rcases d.validate with e | ⟨⟨⟩⟩
  · simp [Except.isOk, Except.toBool]
  rcases parsePolicy d.policy with _ | policy
  · simp [Except.isOk, Except.toBool]
  split_ifs with hid hkey
  · simp [Except.isOk, Except.toBool, hid]
  · simp [Except.isOk, Except.toBool, not_le.mpr hkey]
  · simp [Except.isOk, Except.toBool, hid, not_lt.mp hkey]

end Spec

end Xolu.Bal
