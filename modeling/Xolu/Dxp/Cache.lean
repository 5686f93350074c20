/-
# The reservation cache (pkg/dxp)

Claims live in memory, one shard per tenant, in the order they were held.  A claim
whose deadline has passed is invisible to every read; `confirmTxn` and `releaseTxn`
drop all claims of a transaction and report those they removed.  The clock is an
argument: `now` is in Unix nanoseconds, as deadlines are.
-/
import Mathlib.Data.List.Basic

namespace Xolu.Dxp

/-- Whether a claim counts in other parties' admission. -/
inductive Weight where
  | pessimistic
  | optimistic
deriving DecidableEq, Repr

/-- A reservation of one participant of a transaction. -/
structure Claim where
  txn : String
  primitive : String
  tenant : String
  resource : String
  weight : Weight
  amount : Int
  deadline : Int
  participantId : String
deriving DecidableEq, Repr

/-- `pendingKey` of an adapter: where it stashes the parameters of a participant. -/
def pendingKey (txn participantID : String) : String := txn ++ "\x00" ++ participantID

/-- Where the parameters of a claim are stashed. -/
def claimKey (c : Claim) : String := pendingKey c.txn c.participantId

/-- `MemCache`: the claims of each tenant. -/
structure MemCache where
  shards : String → List Claim

namespace MemCache

/-- `NewMemCache`. -/
def empty : MemCache := ⟨fun _ => []⟩

section

variable (c : MemCache)

/-- The shard of one tenant replaced. -/
def setShard (tenant : String) (l : List Claim) : MemCache := ⟨Function.update c.shards tenant l⟩

/-- `Hold`: append to the tenant's shard. -/
def hold (cl : Claim) : MemCache := c.setShard cl.tenant (c.shards cl.tenant ++ [cl])

/-- `ClaimsFor` / `ClaimsForLocked`: live claims on one resource. -/
def claimsFor (now : Int) (tenant primitive resource : String) : List Claim :=
  (c.shards tenant).filter fun cl =>
    now < cl.deadline && cl.primitive == primitive && cl.resource == resource

/-- `removeTxn`: the reported claims and the cache without the transaction's claims. -/
def removeTxn (now : Int) (tenant txn : String) (liveOnly : Bool) : List Claim × MemCache :=
  ((c.shards tenant).filter fun cl => cl.txn == txn && !(liveOnly && cl.deadline ≤ now),
    c.setShard tenant ((c.shards tenant).filter fun cl => cl.txn != txn))

/-- `ConfirmTxn` reports only claims that are still live. -/
def confirmTxn (now : Int) (tenant txn : String) : List Claim × MemCache :=
  c.removeTxn now tenant txn true

/-- `ReleaseTxn` reports every claim of the transaction. -/
def releaseTxn (now : Int) (tenant txn : String) : List Claim × MemCache :=
  c.removeTxn now tenant txn false

end

@[simp] theorem shards_setShard (c : MemCache) (tenant : String) (l : List Claim) :
    (c.setShard tenant l).shards tenant = l := Function.update_self ..

@[simp] theorem shards_hold (c : MemCache) (cl : Claim) :
    (c.hold cl).shards cl.tenant = c.shards cl.tenant ++ [cl] := shards_setShard ..

end MemCache

end Xolu.Dxp
