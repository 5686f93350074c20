/-
# Holds and the transfer endpoint (pkg/server/v2_dxp_def_handlers.go)

`dxpParticipantRegistry` builds its store with `balStore` and then attaches the tenant's
claims cache to it through `NewAdapter`; the store `handleBalTransfer` works with comes
from `balStore` alone and has no cache.  So a coordinator and the endpoint share the
tables of a tenant and not its claims: a transfer request is admitted against the balance
and the floor, whatever is held.

`holdsRespected_iff` says what that costs.  Over any interleaving, the committed requests
leave every account with at least its live pessimistic claims iff each of them found room
for its amount beside those claims, which nothing in the endpoint checks.
-/
import Xolu.Bal.Holds
import Xolu.Server.BalHandlers

namespace Xolu.Server

open Num64 Instant Chronicle Dxp Keyed Runs Bal

/-! ### The server -/

/-- A step of the server for one tenant.  A transfer request runs under the tenant's
sealer of the moment. -/
inductive ServerCmd where
  | define (d : AccountDef)
  | dxp (c : DxpCmd)
  | balTransfer (sealer : Sealer) (uuid : String) (req : BalTransferReq)
  | tick (d : Nat)

variable (s : Site)

/-- The endpoint on the tables of a site. -/
def balTransfer (sealer : Sealer) (uuid : String) (req : BalTransferReq) : Response × Tables :=
  handleBalTransfer (balStore s.tenant sealer) ⟨s.now, uuid⟩ req s.tables

/-- The site after a step. -/
def serve : ServerCmd → Site
  | .define d => { s with tables := (defineAccount d s.tables).2 }
  | .dxp c => s.dispatch c
  | .balTransfer sealer uuid req => { s with tables := (balTransfer s sealer uuid req).2 }
  | .tick d => { s with now := s.now + d }

/-! ### Books -/

theorem consistent_serve (c : ServerCmd) (C : s.Consistent) : (serve s c).Consistent := by
  cases c with
  | define d => exact C.define d
  | dxp c => exact Site.consistent_dispatch C c
  | balTransfer sealer uuid req =>
    show Site.Consistent { s with tables := (balTransfer s sealer uuid req).2 }
    rcases hok : (balTransfer s sealer uuid req).1.isOk
    · rw [show (balTransfer s sealer uuid req).2 = s.tables from handleBalTransfer_spec hok]
      exact C
    · obtain ⟨x, ks, -, hx⟩ := handleBalTransfer_spec hok
      exact ⟨C.tables.transferred hx, C.stashed⟩
  | tick d => exact ⟨C.tables, C.stashed⟩

/-! ### Holds -/

/-- Every account has at least what the live pessimistic claims on it hold. -/
def ClaimsCovered : Prop := ∀ a ∈ s.tables.accounts, s.heldAll a.id ≤ s.tables.headroom a.id
deriving Decidable

/-- A transfer request, if it is committed, leaves every account covered. -/
def HoldsRespected : ServerCmd → Prop
  | .balTransfer sealer uuid req => (balTransfer s sealer uuid req).1.isOk = true →
      ClaimsCovered (serve s (.balTransfer sealer uuid req))
  | _ => True

instance (s : Site) : DecidablePred (HoldsRespected s)
  | .balTransfer .. => inferInstanceAs (Decidable (_ → ClaimsCovered _))
  | .define _ | .dxp _ | .tick _ => .isTrue trivial

/-- The debited account has room for the amount beside the claims on it, which is what
`Transfer` checks when it has the claims cache, and every other account is covered
already. -/
def RoomFor (s : Site) (x : Transfer) : Prop :=
  ∀ a ∈ s.tables.accounts,
    s.heldAll a.id + (if a.id = x.src then x.amount else 0)
      ≤ s.tables.headroom a.id + (if a.id = x.dst then x.amount else 0)

/-- A request for a transfer that passes the checks finds room for it. -/
def FindsRoom (s : Site) : ServerCmd → Prop
  | .balTransfer sealer uuid req =>
      ∀ x ∈ req.transfer? ⟨s.now, uuid⟩, (balStore s.tenant sealer).Allows s.now x s.tables →
        RoomFor s x
  | _ => True

/-- The endpoint moves headroom and looks at no claim. -/
theorem holdsRespected_step (s : Site) (c : ServerCmd) (C : s.Consistent) :
    HoldsRespected s c ↔ FindsRoom s c := by
  cases c with
  | balTransfer sealer uuid req =>
    have hiff := handleBalTransfer_isOk_iff C.tables.wellFormed (balStore s.tenant sealer)
      ⟨s.now, uuid⟩ req
    rcases hok : (balTransfer s sealer uuid req).1.isOk
    · -- a refused request does not pass the checks either
      refine iff_of_true (fun h => absurd (hok.symm.trans h) (by decide)) ?_
      intro x hx hallow
      exact absurd (hok.symm.trans (hiff.mpr ⟨x, hx, hallow⟩)) (by decide)
    obtain ⟨x, hx, hallow⟩ := hiff.mp hok
    have hfinds : FindsRoom s (.balTransfer sealer uuid req) ↔ RoomFor s x := by
      constructor
      · exact fun h => h x hx hallow
      · intro h x' hx' _
        rwa [Option.some.inj (hx'.symm.trans hx)]
    rw [hfinds, HoldsRespected, imp_iff_right hok]
    obtain ⟨x', ks, hx', htr⟩ := handleBalTransfer_spec hok
    obtain rfl : x = x' := Option.some.inj (Eq.trans hx.symm hx')
    obtain ⟨-, hne, htx⟩ := transfer_spec htr
    obtain ⟨-, a, ra, b, rb, p, -⟩ := transferInTx_ok htx
    have hroom : ∀ id, (serve s (.balTransfer sealer uuid req)).tables.headroom id
        = s.tables.headroom id + (if id = x.src then -x.amount else 0)
          + (if id = x.dst then x.amount else 0) := p.headroom C.tables.wellFormed hne
    have hacc : (serve s (.balTransfer sealer uuid req)).tables.accounts = s.tables.accounts :=
      p.accounts
    have hheld : ∀ id, (serve s (.balTransfer sealer uuid req)).heldAll id = s.heldAll id :=
      fun _ => rfl
    simp only [ClaimsCovered, hacc, hheld, hroom, RoomFor]
    apply forall₂_congr
    intro d _
    split <;> omega
  | _ => exact Iff.rfl

/-- **Ordinary transfers and holds.**  Along every interleaving of transfer requests with
the calls of a coordinator, the committed requests leave every account with at least its
live pessimistic claims iff each of them found room for its amount. -/
theorem holdsRespected_iff (tenant : String) (sealer : Option Sealer) (now : Int)
    (cmds : List ServerCmd) : Along serve HoldsRespected (Site.init tenant sealer now) cmds ↔
      Along serve FindsRoom (Site.init tenant sealer now) cmds :=
  along_iff_of_invariant (N := fun _ _ => True) (fun s c C _ _ => consistent_serve s c C)
    (fun s c C _ => holdsRespected_step s c C) (Site.consistent_init tenant sealer now)
    Along.trivial

/-- A transfer request in whole units, dated by the clock. -/
def payRequest (src dst amount : String) : ServerCmd :=
  .balTransfer (newSealer monthWindows) "id" ⟨"", src, dst, .text amount, 0, "", .absent⟩

/-- The payer is funded with 1000 and a coordinator holds all of it. -/
def heldRun : List ServerCmd :=
  [.define ⟨"bank", "EUR", 0, -5000, none, true, ""⟩,
   .define ⟨"payer", "EUR", 0, 0, none, true, ""⟩,
   .define ⟨"shop", "EUR", 0, 0, none, true, ""⟩,
   payRequest "bank" "payer" "1000",
   .dxp (.reserve "t1" ⟨"payer", "shop", 1000, ""⟩ "T1" "leg" 100 .pessimistic)]

/-- The endpoint then spends the held amount, and the coordinator's execution of what it
reserved is refused. -/
theorem request_spends_hold : let before := run serve (Site.init "t1" none 0) heldRun
    let after := serve before (payRequest "payer" "shop" "1000")
    (balTransfer before (newSealer monthWindows) "id"
        ⟨"", "payer", "shop", .text "1000", 0, "", .absent⟩).1.isOk = true ∧
      after.tables.headroom "payer" = 0 ∧ after.heldAll "payer" = 1000 ∧
      (after.legsOf "T1" [(0, 1)]).map (fun legs => (after.execute legs).1.isOk) = some false ∧
      ¬ Along serve HoldsRespected (Site.init "t1" none 0)
        (heldRun ++ [payRequest "payer" "shop" "1000"]) := by
  decide +kernel

end Xolu.Server
