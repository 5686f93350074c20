/-
# The ledger as a dxp participant (pkg/bal/dxp_adapter.go)

A transaction reserves its transfers first.  `reserve` checks the debited account against
its balance, its floor and the pessimistic claims already held, holds a claim in the cache
and stashes the transfer together with the claim sums it saw.  `validate` checks again and
refreshes those sums; `executeLeg` runs the guarded transfer on the coordinator's database
transaction with the stashed sums, since it must not take the cache lock itself.

A `Site` is one tenant's tables, its cache and the adapter's stash, with the clock.  Each
operation that the source runs under the tenant lock, and each database transaction, is
one step.  Besides the source's data a site records which claims `reserve` has issued and
which have been executed.
-/
import Xolu.Bal.Bounds

namespace Xolu.Bal

open List Num64 Instant Chronicle Dxp Keyed Runs

/-! ### The participant -/

structure TransferParams where
  src : String
  dst : String
  amount : Int
  memo : String
deriving DecidableEq, Repr

/-- `pendingTransfer`: the stashed transfer and the claim sums for its two guards. -/
structure PendingTransfer extends TransferParams where
  srcClaimed : Int
  dstClaimed : Int
deriving DecidableEq, Repr

/-- `accountFromResource`: the resource without its `acct:`. -/
def accountFromResource (resource : String) : String :=
  if "acct:".toList.isPrefixOf resource.toList then String.ofList (resource.toList.drop 5)
  else resource

/-- `balanceAndFloor`: balance, floor and whether the account takes entries. -/
def Tables.balanceAndFloor (t : Tables) (id : String) : Except BalError (Int × Int × Bool) :=
  match t.account? id with
  | none => .error (.unknownAccount id)
  | some a =>
    match t.balances.find? (·.key == a.key) with
    | none => .error (.unknownAccount id)
    | some b => .ok (b.value, a.floor, a.postable)

/-- One tenant's ledger with its dxp participant. -/
structure Site where
  tenant : String
  sealer : Option Sealer := none
  tables : Tables := {}
  cache : MemCache := .empty
  pending : String → Option PendingTransfer := fun _ => none
  now : Int := 0
  /-- The claims that `reserve` has returned, oldest first. -/
  issued : List Claim := []
  /-- The claims, by key, whose execution has committed. -/
  executed : List String := []

namespace Site

variable (s : Site)

/-- The claim sum of an account that the guards work with now. -/
def claimed (id : String) : Int := pessimisticClaimSum s.cache s.now s.tenant (dxpResource id)

/-- The stash with one entry replaced. -/
def stash (key : String) (p : Option PendingTransfer) : Site :=
  { s with pending := Function.update s.pending key p }

/-- Hold a claim and stash its transfer with the claim sums before it. -/
def issue (cl : Claim) (tp : TransferParams) : Site :=
  { s.stash (claimKey cl) (some ⟨tp, s.claimed tp.src, s.claimed tp.dst⟩) with
    cache := s.cache.hold cl
    issued := s.issued ++ [cl] }

/-- `Reserve`.  The headroom is Go's wrapping arithmetic; the text of a tenant mismatch
leaves out the tenant's number. -/
def reserve (tenant : String) (tp : TransferParams) (txn participantId : String)
    (deadline : Int) (w : Weight) : Except BalError Claim × Site :=
  if tp.amount ≤ 0 then (.error (.amountScale "transfer amount must be positive"), s)
  else if tp.src = tp.dst then
    (.error (.amountScale "transfer requires two distinct accounts"), s)
  else if s.tenant ≠ tenant then
    (.error (.participant ("bal participant: tenant key " ++ tenant ++
      " does not match store TenantID (want " ++ s.tenant ++ ")")), s)
  else
    match s.tables.balanceAndFloor tp.src with
    | .error e => (.error e, s)
    | .ok (balance, floor, postable) =>
      if postable = false then (.error (.notPostable tp.src), s)
      else if wrap (wrap (balance - floor) - s.claimed tp.src) < tp.amount then
        (.error (.bounds tp.src .floor), s)
      else
        -- whatever its weight, the claim is held and its transfer stashed
        let cl : Claim := ⟨txn, "bal", tenant, dxpResource tp.src, w, tp.amount, deadline,
          participantId⟩
        (.ok cl, s.issue cl tp)

def validate (c : Claim) : Except BalError Unit × Site :=
  -- an optimistic claim keeps the sums of its reservation
  if c.weight = .optimistic then (.ok (), s)
  else
    let id := accountFromResource c.resource
    match s.tables.balanceAndFloor id with
    | .error e => (.error e, s)
    | .ok (balance, floor, postable) =>
      if postable = false then (.error (.notPostable id), s)
      else
        let sum := pessimisticClaimSum s.cache s.now c.tenant c.resource
        if wrap (wrap (balance - floor) - sum) < 0 then (.error (.bounds id .floor), s)
        else
          match s.pending (claimKey c) with
          | none => (.ok (), s)
          -- the claim's amount comes off whether or not it is still live
          | some p => (.ok (), s.stash (claimKey c) (some { p with
              srcClaimed := wrap (sum - c.amount)
              dstClaimed := pessimisticClaimSum s.cache s.now c.tenant (dxpResource p.dst) }))

end Site

/-- The transfer a stashed one becomes at execution. -/
def PendingTransfer.toTransfer (p : PendingTransfer) (txn : String) (at' : Int) : Transfer :=
  ⟨txn, p.src, p.dst, p.amount, p.memo, at'⟩

/-- `Execute`, on the coordinator's transaction. -/
def executeLeg (sealer : Option Sealer) (pending : String → Option PendingTransfer) (c : Claim)
    (at' : Int) (t : Tables) : Except BalError (Nat × Nat) × Tables :=
  match pending (claimKey c) with
  | none => (.error (.participant ("bal participant: no pending transfer for txn " ++ c.txn ++
      " participant " ++ c.participantId)), t)
  -- the stash stays for `PostCommit`
  | some p => transferInTx sealer (p.toTransfer c.txn at') p.srcClaimed p.dstClaimed t

/-- The legs of a transaction, one after another. -/
def executeLegs (sealer : Option Sealer) (pending : String → Option PendingTransfer) :
    List (Claim × Int) → Tables → Except BalError Unit × Tables
  | [], t => (.ok (), t)
  | (c, at') :: legs, t =>
    match executeLeg sealer pending c at' t with
    | (.error e, t) => (.error e, t)
    | (.ok _, t) => executeLegs sealer pending legs t

namespace Site

/-- The legs inside one database transaction, committed if all succeed. -/
def execute (s : Site) (legs : List (Claim × Int)) : Except BalError Unit × Site :=
  match atomically (executeLegs s.sealer s.pending legs) s.tables with
  | (.error e, _) => (.error e, s)
  | (.ok (), t) => (.ok (), { s with
      tables := t
      executed := s.executed ++ legs.map fun l => claimKey l.1 })

/-- `Transfer` through a store that has the claims cache attached. -/
def transfer (s : Site) (x : Transfer) : Except BalError (Nat × Nat) × Tables :=
  Store.transfer ⟨s.tenant, some s.cache, s.sealer⟩ s.now x s.tables

/-! ### Steps -/

end Site

/-- The calls a coordinator makes on behalf of a transaction.  Claims are named by their
place among the issued ones; the stash entry of a claim is dropped by `release` as by
`PostCommit`. -/
inductive DxpCmd where
  | reserve (tenant : String) (tp : TransferParams) (txn participantId : String)
    (deadline : Int) (w : Weight)
  | validate (i : Nat)
  | execute (txn : String) (legs : List (Nat × Int))
  | release (i : Nat)
  | confirmTxn (txn : String)
  | releaseTxn (txn : String)

/-- The steps of a site. -/
inductive SiteCmd where
  | define (d : AccountDef)
  | dxp (c : DxpCmd)
  | transfer (x : Transfer)
  /-- Time passes, and deadlines with it. -/
  | tick (d : Nat)

namespace Site

/-- The issued claims of one transaction that a list of places names. -/
def legsOf (s : Site) (txn : String) : List (Nat × Int) → Option (List (Claim × Int))
  | [] => some []
  | (i, at') :: is =>
    match s.issued[i]?, s.legsOf txn is with
    | some c, some legs => if c.txn = txn then some ((c, at') :: legs) else none
    | _, _ => none

/-- One call; calls that name no claim do nothing. -/
def dispatch (s : Site) : DxpCmd → Site
  | .reserve tenant tp txn participantId deadline w =>
    (s.reserve tenant tp txn participantId deadline w).2
  | .validate i =>
    match s.issued[i]? with
    | some c => (s.validate c).2
    | none => s
  | .execute txn is =>
    match s.legsOf txn is with
    | some legs => (s.execute legs).2
    | none => s
  | .release i =>
    match s.issued[i]? with
    | some c => s.stash (claimKey c) none
    | none => s
  | .confirmTxn txn => { s with cache := (s.cache.confirmTxn s.now s.tenant txn).2 }
  | .releaseTxn txn => { s with cache := (s.cache.releaseTxn s.now s.tenant txn).2 }

/-- The site after a step. -/
def step (s : Site) : SiteCmd → Site
  | .define d => { s with tables := (defineAccount d s.tables).2 }
  | .dxp c => s.dispatch c
  | .transfer x => { s with tables := (s.transfer x).2 }
  | .tick d => { s with now := s.now + d }

end Site

/-- A site with no accounts and no claims. -/
def Site.init (tenant : String) (sealer : Option Sealer) (now : Int) : Site :=
  { tenant := tenant, sealer := sealer, now := now }

/-! ### What the operations did -/

/-- What an account has above its floor. -/
def Tables.headroom (t : Tables) (id : String) : Int :=
  match t.account? id with
  | some a => t.valueOf a.key - a.floor
  | none => 0

theorem balanceAndFloor_ok {t : Tables} {id : String} {v f : Int} {post : Bool} (wf : WellFormed t)
    (h : t.balanceAndFloor id = .ok (v, f, post)) :
    ∃ a, t.account? id = some a ∧ a.postable = post ∧ v - f = t.headroom id := by
  unfold Tables.balanceAndFloor at h
  split at h
  · cases h
  next a ha =>
  split at h
  · cases h
  next r hr =>
  cases h
  refine ⟨a, ha, rfl, ?_⟩
  have hk : r.key = a.key := by simpa using find?_some hr
  simp [Tables.headroom, ha, ← hk, wf.valueOf (mem_of_find?_eq_some hr)]

theorem executeLeg_ok {sealer : Option Sealer} {pending : String → Option PendingTransfer}
    {c : Claim} {at' : Int} {t t' : Tables} {ks : Nat × Nat}
    (h : executeLeg sealer pending c at' t = (.ok ks, t')) : ∃ q, pending (claimKey c) = some q ∧
      transferInTx sealer (q.toTransfer c.txn at') q.srcClaimed q.dstClaimed t = (.ok ks, t') := by
  unfold executeLeg at h
  split at h
  · cases h
  · next q hq => exact ⟨q, hq, h⟩

namespace Site

variable {s s' : Site} {tenant txn participantId : String} {tp : TransferParams}

theorem reserve_spec {deadline : Int} {w : Weight} {r : Except BalError Claim}
    (h : s.reserve tenant tp txn participantId deadline w = (r, s')) :
    match r with
    | .error _ => s' = s
    | .ok cl => WellFormed s.tables →
      0 < tp.amount ∧ tp.src ≠ tp.dst ∧ (s.tables.account? tp.src).isSome = true ∧
        tp.amount ≤ wrap (wrap (s.tables.headroom tp.src) - s.claimed tp.src) ∧
        cl = ⟨txn, "bal", s.tenant, dxpResource tp.src, w, tp.amount, deadline, participantId⟩ ∧
        s' = s.issue cl tp := by
  unfold reserve at h
  split at h
  · cases h; rfl
  next hpos =>
  split at h
  · cases h; rfl
  next hne =>
  split at h
  · cases h; rfl
  next htenant =>
  split at h
  · cases h; rfl
  next v f post hread =>
  split at h
  · cases h; rfl
  split at h
  · cases h; rfl
  next hroom =>
  cases h
  intro wf
  obtain ⟨a, ha, -, hhead⟩ := balanceAndFloor_ok wf hread
  rw [hhead] at hroom
  refine ⟨by omega, hne, by simp [ha], by omega, ?_, ?_⟩
  · simp [not_not.mp htenant]
  · rfl

theorem validate_cases (s : Site) (c : Claim) :
    (s.validate c).2 = s ∨ ∃ p, s.pending (claimKey c) = some p ∧ ∃ src dst, InRange src ∧
      (s.validate c).2 = s.stash (claimKey c)
        (some { p with srcClaimed := src, dstClaimed := dst }) := by
  unfold validate
  split
  · exact .inl rfl
  dsimp only
  split
  · exact .inl rfl
  split
  · exact .inl rfl
  split
  · exact .inl rfl
  split
  · exact .inl rfl
  · next p hp => exact .inr ⟨p, hp, _, _, wrap_inRange _, rfl⟩

variable {legs : List (Claim × Int)}

theorem legsOf_spec {txn : String} {is : List (Nat × Int)}
    (h : s.legsOf txn is = some legs) : ∀ l ∈ legs, l.1 ∈ s.issued ∧ l.1.txn = txn := by
  induction is generalizing legs with
  | nil =>
    cases h
    simp
  | cons i is ih =>
    unfold legsOf at h
    split at h
    · next c legs' hc hlegs =>
      split at h
      · next htxn =>
        cases h
        intro l hl
        rcases mem_cons.mp hl with rfl | hl
        · exact ⟨mem_of_getElem? hc, htxn⟩
        · exact ih hlegs l hl
      · cases h
    · cases h

theorem execute_spec {ok : Bool} (h : (s.execute legs).1.isOk = ok) :
    match (motive := Bool → Prop) ok with
    | false => (s.execute legs).2 = s
    | true => ∃ t', executeLegs s.sealer s.pending legs s.tables = (.ok (), t') ∧
      (s.execute legs).2 = { s with
        tables := t'
        executed := s.executed ++ legs.map fun l => claimKey l.1 } := by
  subst h
  unfold execute
  rcases hx : atomically (executeLegs s.sealer s.pending legs) s.tables with ⟨e | u, t'⟩
  · rfl
  · exact ⟨t', atomically_ok.mp hx, rfl⟩

theorem execute_isOk (s : Site) (legs : List (Claim × Int)) :
    (s.execute legs).1.isOk = (executeLegs s.sealer s.pending legs s.tables).1.isOk := by
  unfold execute atomically
  rcases hx : executeLegs s.sealer s.pending legs s.tables with ⟨e | u, t'⟩ <;>
    simp only [Except.isOk, Except.toBool]

end Site

/-! ### Every step keeps the books -/

/-- The tables agree with their journal, and balances are 64-bit integers. -/
structure Tables.Consistent (t : Tables) : Prop where
  ledger : Ledger t.journal t
  range : ∀ b ∈ t.balances, InRange b.value

section

variable {t t' : Tables} (C : t.Consistent)

include C

theorem Tables.Consistent.wellFormed : WellFormed t := C.ledger.toWellFormed

theorem Tables.Consistent.defined {d : AccountDef} {k : Nat}
    (h : defineAccount d t = (.ok k, t')) : t'.Consistent := by
  have hledger := C.ledger.defined h
  obtain ⟨-, -, -, policy, -, rfl⟩ := defineAccount_spec h
  refine ⟨hledger, ?_⟩
  intro b hb
  rcases mem_append.mp hb with hb | hb
  · exact C.range b hb
  · rw [mem_singleton.mp hb]
    show InRange 0
    decide

theorem Tables.Consistent.posted {x : Transfer} {cs cd : Int} {a b : Account} {ra rb : Balance}
    (p : Posted t x cs cd a ra b rb t') (hne : x.src ≠ x.dst) : t'.Consistent where
  ledger := by
    rw [p.journal]
    exact C.ledger.posted p hne
  range := by
    intro r hr
    rcases (p.mem_balances C.wellFormed hne).mp hr with rfl | rfl | ⟨hr, -, -⟩
    · exact p.dstRange
    · exact p.srcRange
    · exact C.range r hr

theorem Tables.Consistent.transferred {s : Store} {now : Int} {x : Transfer} {ks : Nat × Nat}
    (h : s.transfer now x t = (.ok ks, t')) : t'.Consistent := by
  obtain ⟨-, hne, htx⟩ := transfer_spec h
  obtain ⟨-, a, ra, b, rb, p, -⟩ := transferInTx_ok htx
  exact C.posted p hne

/-- The legs of a transaction, by induction on their number. -/
theorem Tables.Consistent.executed {sealer : Option Sealer}
    {pending : String → Option PendingTransfer}
    (hp : ∀ k p, pending k = some p → p.src ≠ p.dst) (legs : List (Claim × Int))
    (h : executeLegs sealer pending legs t = (.ok (), t')) : t'.Consistent := by
  induction legs generalizing t with
  | nil =>
    cases h
    exact C
  | cons l legs ih =>
    unfold executeLegs at h
    split at h
    · cases h
    next ks t₁ hleg =>
    obtain ⟨q, hq, htx⟩ := executeLeg_ok hleg
    obtain ⟨-, a, ra, b, rb, p, -⟩ := transferInTx_ok htx
    exact ih (C.posted p (hp _ q hq)) h

end

namespace Site

/-- Consistent tables, and a stash of transfers between two accounts each. -/
structure Consistent (s : Site) : Prop where
  tables : s.tables.Consistent
  stashed : ∀ k p, s.pending k = some p → p.src ≠ p.dst

variable {s s' : Site}

/-- Replacing a stash entry. -/
theorem Consistent.stash (C : s.Consistent) {key : String} {q : Option PendingTransfer}
    (h : ∀ p ∈ q, p.src ≠ p.dst) : (s.stash key q).Consistent := by
  refine ⟨C.tables, ?_⟩
  intro k p hp
  by_cases hk : k = key
  · simp only [Site.stash, hk, Function.update_self] at hp
    exact h p hp
  · simp only [Site.stash, Function.update_of_ne hk] at hp
    exact C.stashed k p hp

theorem consistent_dispatch (C : s.Consistent) (c : DxpCmd) : (s.dispatch c).Consistent := by
  cases c with
  | reserve tenant tp txn participantId deadline w =>
    show Consistent (s.reserve tenant tp txn participantId deadline w).2
    rcases hr : s.reserve tenant tp txn participantId deadline w with ⟨e | cl, s'⟩
    · obtain rfl : _ = _ := reserve_spec hr
      exact C
    · obtain ⟨-, hne, -, -, -, rfl⟩ := reserve_spec hr C.tables.wellFormed
      -- the claim goes to the cache, the transfer to the stash
      have hstash : (s.stash (claimKey cl)
          (some ⟨tp, s.claimed tp.src, s.claimed tp.dst⟩)).Consistent := by
        apply C.stash
        simpa using hne
      exact ⟨hstash.tables, hstash.stashed⟩
  | validate i =>
    simp only [dispatch]
    split
    · next c _ =>
      rcases validate_cases s c with hv | ⟨p, hp, src, dst, -, hv⟩
      · rwa [hv]
      · rw [hv]
        apply C.stash
        intro q hq
        obtain rfl := Option.mem_some_iff.mp hq
        exact C.stashed _ p hp
    · exact C
  | execute txn is =>
    simp only [dispatch]
    split
    · next legs _ =>
      rcases hok : (s.execute legs).1.isOk
      · rwa [show (s.execute legs).2 = s from execute_spec hok]
      · obtain ⟨t', hx, hs'⟩ := execute_spec hok
        rw [hs']
        exact ⟨C.tables.executed C.stashed legs hx, C.stashed⟩
    · exact C
  | release i =>
    simp only [dispatch]
    split
    · apply C.stash
      simp
    · exact C
  | confirmTxn | releaseTxn => exact ⟨C.tables, C.stashed⟩

theorem Consistent.define (C : s.Consistent) (d : AccountDef) :
    Consistent { s with tables := (defineAccount d s.tables).2 } := by
  rcases hd : defineAccount d s.tables with ⟨e | k, t'⟩
  · obtain rfl : _ = _ := defineAccount_spec hd
    exact C
  · exact ⟨C.tables.defined hd, C.stashed⟩

theorem consistent_step (s : Site) (c : SiteCmd) (C : s.Consistent) : (s.step c).Consistent := by
  cases c with
  | define d => exact C.define d
  | dxp c => exact consistent_dispatch C c
  | transfer x =>
    show Consistent { s with tables := (s.transfer x).2 }
    rcases hx : s.transfer x with ⟨e | ks, t'⟩
    · obtain rfl : _ = _ := transfer_spec hx
      exact C
    · exact ⟨C.tables.transferred hx, C.stashed⟩
  | tick d => exact ⟨C.tables, C.stashed⟩

theorem consistent_init (tenant : String) (sealer : Option Sealer) (now : Int) :
    (init tenant sealer now).Consistent :=
  ⟨⟨Ledger.empty, by simp [init]⟩, by simp [init]⟩

/-- Every reachable site is consistent. -/
theorem consistent_run (tenant : String) (sealer : Option Sealer) (now : Int)
    (cmds : List SiteCmd) : (run step (init tenant sealer now) cmds).Consistent :=
  invariant_run consistent_step (consistent_init tenant sealer now) cmds

/-- **Conservation** whatever the interleaving of transfers and instances. -/
theorem conserved_run (tenant : String) (sealer : Option Sealer) (now : Int)
    (cmds : List SiteCmd) :
    let t := (run step (init tenant sealer now) cmds).tables
    (t.balances.map Balance.value).sum = 0 ∧
      ∀ b ∈ t.balances, Books (rowsOf t.journal b.key) b ∧ InRange b.value := by
  have C := (consistent_run tenant sealer now cmds).tables
  exact ⟨C.ledger.sum, fun b hb => ⟨C.ledger.books b hb, C.range b hb⟩⟩

end Site

end Xolu.Bal
