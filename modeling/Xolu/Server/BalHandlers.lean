/-
# The transfer endpoint (pkg/server/v2_bal_handlers.go)

`handleBalTransfer` reads the amount at the scale of the request, not at the scale of
either account, and hands a bare integer to `Transfer`; units are never compared.
`transfers_exact_iff` says when that is harmless: a run of definitions and transfer
requests moves exactly the decimal amounts of its requests, and keeps every unit at sum
zero, iff each request whose transfer passes the checks names the scale of both its
accounts and these share their unit.
-/
import Xolu.Bal.Ledger

namespace Xolu.Server

open List Num64 Instant Chronicle Dxp Keyed Runs Bal Option

/-! ### The handler -/

/-- `balStore`: a store for one request.  The tenant's sealer is attached to it; the
tenant's claims cache is not. -/
def balStore (tenant : String) (sealer : Sealer) : Store := ⟨tenant, none, some sealer⟩

/-- The `amount` member of a request body. -/
inductive AmountField where
  | text (s : String)
  | number
deriving DecidableEq, Repr

/-- The `at` member: absent, not RFC 3339, or an instant. -/
inductive AtField where
  | absent
  | malformed
  | instant (t : Int)
deriving DecidableEq, Repr

/-- `balTransferReq`, decoded. -/
structure BalTransferReq where
  transferId : String
  src : String
  dst : String
  amount : AmountField
  scale : Nat
  memo : String
  instant : AtField
deriving DecidableEq, Repr

/-- The reply: the echoed transfer, or a status with an error code. -/
inductive Response where
  | ok (transferId src dst amount : String)
  | error (status : Nat) (code : String)
deriving DecidableEq, Repr

def writeBalError : BalError → Response
  | .bounds _ _ => .error 409 "XOLU-BAL001"
  | .unknownAccount _ => .error 404 "XOLU-BAL002"
  | .amountScale _ => .error 400 "XOLU-BAL004"
  | .notPostable _ => .error 409 "XOLU-BAL005"
  | .sealedPeriod _ _ => .error 409 "XOLU-BAL003"
  | .backdated _ _ => .error 409 "XOLU-BAL006"
  | .duplicateAccount _ => .error 409 "XOLU-BAL007"
  | _ => .error 500 "XOLU-ST006"

/-- The clock and the generated id a request may fall back on. -/
structure RequestEnv where
  now : Int
  uuid : String
deriving DecidableEq, Repr

/-- The transfer a well-formed request asks for, once its amount is parsed. -/
def BalTransferReq.toTransfer (req : BalTransferReq) (env : RequestEnv) (amount at' : Int) :
    Transfer where
  transferId := if req.transferId = "" then env.uuid else req.transferId
  src := req.src
  dst := req.dst
  amount := amount
  memo := req.memo
  instant := at'

def handleBalTransfer (store : Store) (env : RequestEnv) (req : BalTransferReq) (t : Tables) :
    Response × Tables :=
  match req.amount with
  | .number => (.error 400 "XOLU-BAL004", t)
  | .text s =>
    -- at the scale of the request, whatever the accounts have
    match parseAmount s req.scale with
    | .error _ => (.error 400 "XOLU-BAL004", t)
    | .ok amount =>
      -- without a date the transfer is dated now
      match (match req.instant with
        | .absent => some env.now
        | .malformed => none
        | .instant at' => some at') with
      | none => (.error 400 "XOLU-VL002", t)
      | some at' =>
        let x := req.toTransfer env amount at'
        match store.transfer env.now x t with
        | (.error e, t') => (writeBalError e, t')
        | (.ok _, t') => (.ok x.transferId x.src x.dst (formatAmount amount req.scale), t')

/-- The request was answered with success. -/
def Response.isOk : Response → Bool
  | .ok .. => true
  | .error .. => false

/-- The transfer a request asks for, if its amount and its date can be read. -/
def BalTransferReq.transfer? (req : BalTransferReq) (env : RequestEnv) : Option Transfer :=
  match req.amount with
  | .number => none
  | .text s =>
    match parseAmount s req.scale with
    | .error _ => none
    | .ok amount =>
      match req.instant with
      | .absent => some (req.toTransfer env amount env.now)
      | .malformed => none
      | .instant at' => some (req.toTransfer env amount at')

section

variable {store : Store} {env : RequestEnv} {req : BalTransferReq} {t t' : Tables} {x : Transfer}

/-- The handler reads the request as `transfer?` does, and then makes the transfer. -/
theorem handleBalTransfer_cases (store : Store) (t : Tables) {r : Option Transfer}
    (h : req.transfer? env = r) :
    match (motive := Option Transfer → Prop) r with
    | none => (handleBalTransfer store env req t).1.isOk = false ∧
      (handleBalTransfer store env req t).2 = t
    | some x =>
      ((∃ text, req.amount = .text text ∧ parseAmount text req.scale = .ok x.amount) ∧
        x.src = req.src ∧ x.dst = req.dst) ∧
      handleBalTransfer store env req t =
        match store.transfer env.now x t with
        | (.error e, t') => (writeBalError e, t')
        | (.ok _, t') => (.ok x.transferId x.src x.dst (formatAmount x.amount req.scale), t') := by
  subst h
  unfold BalTransferReq.transfer? handleBalTransfer
  rcases req.amount with text | -
  · dsimp only
    rcases hparse : parseAmount text req.scale with e | amount
    · exact ⟨rfl, rfl⟩
    rcases req.instant with - | - | at'
    · exact ⟨⟨⟨text, rfl, hparse⟩, rfl, rfl⟩, rfl⟩
    · exact ⟨rfl, rfl⟩
    · exact ⟨⟨⟨text, rfl, hparse⟩, rfl, rfl⟩, rfl⟩
  · exact ⟨rfl, rfl⟩

/-- A request that is refused changes nothing; one that is answered with success has made the
transfer it asks for. -/
theorem handleBalTransfer_spec {ok : Bool} (h : (handleBalTransfer store env req t).1.isOk = ok) :
    match (motive := Bool → Prop) ok with
    | false => (handleBalTransfer store env req t).2 = t
    | true => ∃ x ks, req.transfer? env = some x ∧
      store.transfer env.now x t = (.ok ks, (handleBalTransfer store env req t).2) := by
  subst h
  rcases hx : req.transfer? env with - | x
  · obtain ⟨hrefused, hsame⟩ := handleBalTransfer_cases store t hx
    rw [hrefused]
    exact hsame
  rw [(handleBalTransfer_cases store t hx).2]
  rcases htr : store.transfer env.now x t with ⟨e | ks, t'⟩
  · have hsame : t' = t := transfer_spec htr
    cases e <;> exact hsame
  · exact ⟨x, ks, rfl, htr⟩

/-- A request succeeds iff it asks for a transfer that passes the checks. -/
theorem handleBalTransfer_isOk_iff (wf : WellFormed t) (store : Store) (env : RequestEnv)
    (req : BalTransferReq) : (handleBalTransfer store env req t).1.isOk = true ↔
      ∃ x ∈ req.transfer? env, store.Allows env.now x t := by
  constructor
  · intro h
    obtain ⟨x, ks, hx, htr⟩ := handleBalTransfer_spec h
    refine ⟨x, hx, (transfer_isOk_iff wf store env.now x).mp ?_⟩
    rw [htr]
    rfl
  · rintro ⟨x, hx, hallow⟩
    have hok := (transfer_isOk_iff wf store env.now x).mpr hallow
    rw [(handleBalTransfer_cases store t hx).2]
    rcases htr : store.transfer env.now x t with ⟨e | ks, t'⟩
    · rw [htr] at hok
      cases hok
    · rfl

end

/-! ### Decimal balances -/

variable {t t' : Tables}

/-- A balance read at its account's own scale. -/
def decimal (t : Tables) (a : Account) : ℚ := t.valueOf a.key / 10 ^ a.scale

/-- The sum of the balances of one unit. -/
def unitSum (t : Tables) (unit : String) : ℚ :=
  (t.accounts.map fun a => if a.unit = unit then decimal t a else 0).sum

/-- A transfer takes `m` minor units, whatever one of them is worth, off the unit of the
debited account and adds `m` to the unit of the credited one. -/
theorem unitSum_posted {x : Transfer} {cs cd : Int} {a b : Account} {ra rb : Balance}
    (wf : WellFormed t) (p : Posted t x cs cd a ra b rb t') (hne : x.src ≠ x.dst) (u : String) :
    unitSum t' u = unitSum t u + (if a.unit = u then -(x.amount / 10 ^ a.scale : ℚ) else 0)
      + (if b.unit = u then (x.amount / 10 ^ b.scale : ℚ) else 0) := by
  -- account by account: what it had, less the debit, plus the credit
  have hrow : ∀ c ∈ t.accounts, (if c.unit = u then decimal t' c else 0)
      = ((if c.unit = u then decimal t c else 0)
        + (if c.key = a.key then (if c.unit = u then -(x.amount / 10 ^ c.scale : ℚ) else 0)
            else 0))
        + (if c.key = b.key then (if c.unit = u then (x.amount / 10 ^ c.scale : ℚ) else 0)
            else 0) := by
    intro c hc
    simp only [decimal, p.valueOf wf hne hc]
    push_cast
    split_ifs <;> ring
  unfold unitSum
  rw [p.accounts, map_congr_left hrow, sum_map_add, sum_map_add,
    sum_single _ wf.keys p.mem_src, sum_single _ wf.keys p.mem_dst]

/-- A definition adds an account at zero. -/
theorem unitSum_defined {l : List Entry} {d : AccountDef} {k : Nat} (L : Ledger l t)
    (h : defineAccount d t = (.ok k, t')) (u : String) : unitSum t' u = unitSum t u := by
  have L' := L.defined h
  obtain ⟨-, -, -, policy, -, rfl⟩ := defineAccount_spec h
  have hold : ∀ c ∈ t.accounts, decimal { t with
      accounts := t.accounts ++ [d.toAccount t.nextKey policy]
      balances := t.balances ++ [⟨t.nextKey, 0, 0⟩] } c = decimal t c := by
    intro c hc
    obtain ⟨r, hr, hrk⟩ := L.exists_balance hc
    have hr' := L'.valueOf (mem_append_left _ hr)
    unfold decimal
    rw [← hrk, hr', L.valueOf hr]
  -- the old accounts keep their rows, the new one starts at zero
  have hnew := L'.valueOf (b := ⟨t.nextKey, 0, 0⟩) (by simp)
  unfold unitSum
  rw [map_append, sum_append, map_congr_left fun c hc => by rw [hold c hc]]
  simp only [map_cons, map_nil, sum_cons, sum_nil, decimal, AccountDef.toAccount] at hnew ⊢
  rw [hnew]
  simp

/-! ### Runs of definitions and transfer requests -/

/-- A step of the endpoint: a definition, or a transfer request under the tenant's
sealer of the moment. -/
inductive BalCmd where
  | define (d : AccountDef)
  | transfer (sealer : Sealer) (env : RequestEnv) (req : BalTransferReq)

variable (tenant : String)

/-- The tables after a step. -/
def balStep (t : Tables) : BalCmd → Tables
  | .define d => (defineAccount d t).2
  | .transfer sealer env req => (handleBalTransfer (balStore tenant sealer) env req t).2

/-- The two accounts, each at its own scale, moved by exactly the requested decimal. -/
def ExactMove (t t' : Tables) (req : BalTransferReq) : Prop :=
  ∀ text, req.amount = .text text → ∀ a ∈ t.accounts,
    (a.id = req.src → decimal t' a = decimal t a - decimalValue text) ∧
    (a.id = req.dst → decimal t' a = decimal t a + decimalValue text)

/-- After the step every unit sums to zero, and a transfer moved what was requested. -/
def ValueConserved (t : Tables) (c : BalCmd) : Prop :=
  (match c with
    | .define _ => True
    | .transfer sealer env req =>
      (handleBalTransfer (balStore tenant sealer) env req t).1.isOk = true →
        ExactMove t (balStep tenant t c) req) ∧
  ∀ u, unitSum (balStep tenant t c) u = 0

/-- A request for a transfer that passes the checks names the scale of both its accounts,
and these have the same unit. -/
def SameScaleAndUnit (t : Tables) : BalCmd → Prop
  | .define _ => True
  | .transfer sealer env req =>
    ∀ x ∈ req.transfer? env, (balStore tenant sealer).Allows env.now x t →
      ∀ a ∈ t.accounts, ∀ b ∈ t.accounts, a.id = x.src → b.id = x.dst →
        a.scale = req.scale ∧ b.scale = req.scale ∧ a.unit = b.unit

variable {tenant}

/-- A positive amount has different values at different scales. -/
theorem scale_eq_of_value_eq {m : ℚ} (hm : 0 < m) {i j : Nat}
    (h : m / 10 ^ i = m / 10 ^ j) : i = j := by
  have h10 : (10 : ℚ) ^ i = 10 ^ j := by
    rw [div_eq_div_iff (by positivity) (by positivity)] at h
    exact (mul_left_cancel₀ hm.ne' h).symm
  exact Nat.pow_right_injective (le_refl 2 |>.trans (by decide : 2 ≤ 10)) (by exact_mod_cast h10)

/-- What a successful transfer request did, at the value of its decimal text. -/
theorem conserved_iff_of_posted {x : Transfer} {a b : Account} {ra rb : Balance} {cs cd : Int}
    {text : String} {scale : Nat} (wf : WellFormed t) (hsum : ∀ u, unitSum t u = 0)
    (p : Posted t x cs cd a ra b rb t') (hne : x.src ≠ x.dst) (hpos : 0 < x.amount)
    (hparse : parseAmount text scale = .ok x.amount) :
    ((∀ c ∈ t.accounts, (c.id = x.src → decimal t' c = decimal t c - decimalValue text) ∧
        (c.id = x.dst → decimal t' c = decimal t c + decimalValue text)) ∧
      ∀ u, unitSum t' u = 0) ↔ a.scale = scale ∧ b.scale = scale ∧ a.unit = b.unit := by
  have hkey := p.key_ne wf hne
  have hida := (Tables.account?_spec p.debited.account).2
  have hidb := (Tables.account?_spec p.credited.account).2
  have hm : (0 : ℚ) < x.amount := by exact_mod_cast hpos
  have hval : decimalValue text = x.amount / 10 ^ scale := by
    rw [parseAmount_value hparse, mul_div_cancel_right₀ _ (by positivity)]
  have hdeca : decimal t' a = decimal t a - x.amount / 10 ^ a.scale := by
    simp only [decimal, p.valueOf wf hne p.mem_src, if_pos, if_neg hkey]
    push_cast
    ring
  have hdecb : decimal t' b = decimal t b + x.amount / 10 ^ b.scale := by
    simp only [decimal, p.valueOf wf hne p.mem_dst, if_pos, if_neg hkey.symm]
    push_cast
    ring
  constructor
  · rintro ⟨hmove, hsum'⟩
    -- each account moved by the decimal, so the amount stands at its scale
    have hsa : a.scale = scale := by
      have h := (hmove a p.mem_src).1 hida
      exact scale_eq_of_value_eq hm (by linarith)
    have hsb : b.scale = scale := by
      have h := (hmove b p.mem_dst).2 hidb
      exact scale_eq_of_value_eq hm (by linarith)
    refine ⟨hsa, hsb, ?_⟩
    -- with different units the debited unit would lose the amount
    by_contra hu
    have h := unitSum_posted wf p hne a.unit
    rw [hsum, hsum', if_pos rfl, if_neg (Ne.symm hu)] at h
    have : (0 : ℚ) < x.amount / 10 ^ a.scale := by positivity
    linarith
  · rintro ⟨hsa, hsb, hu⟩
    refine ⟨?_, ?_⟩
    · intro c hc
      refine ⟨fun hid => ?_, fun hid => ?_⟩
      · obtain rfl := wf.ids.eq_of_key hc p.mem_src (hid.trans hida.symm)
        rw [hdeca, hval, hsa]
      · obtain rfl := wf.ids.eq_of_key hc p.mem_dst (hid.trans hidb.symm)
        rw [hdecb, hval, hsb]
    · intro u
      rw [unitSum_posted wf p hne, hsum, hsa, hsb, hu]
      split_ifs <;> ring

theorem ledger_balStep (t : Tables) (c : BalCmd) (L : Ledger t.journal t) :
    Ledger (balStep tenant t c).journal (balStep tenant t c) := by
  cases c with
  | define d => exact ledger_step t (.define d) L
  | transfer sealer env req =>
    show Ledger (handleBalTransfer _ env req t).2.journal (handleBalTransfer _ env req t).2
    rcases h : (handleBalTransfer (balStore tenant sealer) env req t).1.isOk
    · rw [show _ = t from handleBalTransfer_spec h]
      exact L
    · obtain ⟨x, ks, -, htr⟩ := handleBalTransfer_spec h
      have := ledger_step t (.transfer (balStore tenant sealer) env.now x) L
      rwa [step, htr] at this

theorem valueConserved_step (c : BalCmd) (L : Ledger t.journal t) (hsum : ∀ u, unitSum t u = 0) :
    ValueConserved tenant t c ↔ SameScaleAndUnit tenant t c := by
  cases c with
  | define d =>
    refine iff_of_true ⟨trivial, fun u => ?_⟩ trivial
    show unitSum (defineAccount d t).2 u = 0
    rcases h : defineAccount d t with ⟨_ | k, t'⟩
    · obtain rfl : _ = _ := defineAccount_spec h
      exact hsum u
    · rw [unitSum_defined L h, hsum]
  | transfer sealer env req =>
    have hiffOk := handleBalTransfer_isOk_iff L.toWellFormed (balStore tenant sealer) env req
    rcases hok : (handleBalTransfer (balStore tenant sealer) env req t).1.isOk
    · -- a refused request changes nothing
      have hstep : balStep tenant t (.transfer sealer env req) = t := handleBalTransfer_spec hok
      refine iff_of_true ⟨fun h => ?_, fun u => ?_⟩ fun x hx hallow => ?_
      · rw [hok] at h
        cases h
      · rw [hstep, hsum]
      · rw [hiffOk.mpr ⟨x, hx, hallow⟩] at hok
        cases hok
    · obtain ⟨x, ks, hx, htr⟩ := handleBalTransfer_spec hok
      obtain ⟨⟨text, htext, hparse⟩, hsrc, hdst⟩ :=
        (handleBalTransfer_cases (balStore tenant sealer) t hx).1
      obtain ⟨hpos, hne, htx⟩ := transfer_spec htr
      obtain ⟨-, a, ra, b, rb, p, -⟩ := transferInTx_ok htx
      have hiff := conserved_iff_of_posted L.toWellFormed hsum p hne hpos hparse
      have hida := (Tables.account?_spec p.debited.account).2
      have hidb := (Tables.account?_spec p.credited.account).2
      constructor
      · -- ids are unique, so the accounts named are those posted to
        rintro ⟨hmove, hsum'⟩ x' hx' - a' ha' b' hb' hsrc' hdst'
        obtain rfl : x = x' := some.inj (hx.symm.trans hx')
        obtain rfl := L.ids.eq_of_key ha' p.mem_src (hsrc'.trans hida.symm)
        obtain rfl := L.ids.eq_of_key hb' p.mem_dst (hdst'.trans hidb.symm)
        refine hiff.mp ⟨?_, hsum'⟩
        rw [hsrc, hdst]
        exact hmove hok text htext
      · intro hsame
        obtain ⟨x', hx', hallow⟩ := hiffOk.mp hok
        obtain rfl : x = x' := some.inj (hx.symm.trans hx')
        obtain ⟨hmove, hsum'⟩ := hiff.mpr (hsame x hx hallow a p.mem_src b p.mem_dst hida hidb)
        refine ⟨fun _ text' htext' => ?_, hsum'⟩
        obtain rfl : text' = text := by simpa [htext] using htext'.symm
        rw [hsrc, hdst] at hmove
        exact hmove

/-- **Value per unit.**  Over a run of definitions and transfer requests, every step
conserves value (each transfer moves its decimal amount on both accounts, and every unit
sums to zero) iff every request whose transfer passes the checks names the scale of both
its accounts and these share their unit. -/
theorem transfers_exact_iff (tenant : String) (cmds : List BalCmd) : Along (balStep tenant)
    (ValueConserved tenant) {} cmds ↔ Along (balStep tenant) (SameScaleAndUnit tenant) {} cmds := by
  have hN : Along (balStep tenant) (fun _ _ => True) {} cmds := Along.trivial
  refine along_iff_of_invariant
    (I := fun t => Ledger t.journal t ∧ ∀ u, unitSum t u = 0) ?_ ?_ ?_ hN
  · rintro t c ⟨L, hsum⟩ - hC
    exact ⟨ledger_balStep t c L, ((valueConserved_step c L hsum).mpr hC).2⟩
  · rintro t c ⟨L, hsum⟩ -
    exact valueConserved_step c L hsum
  · exact ⟨Ledger.empty, fun _ => rfl⟩

/-- A EUR account in cents, a widget account in pieces, and one transfer of "1" that
names scale 0. -/
def mixedRun : List BalCmd :=
  [.define ⟨"eur", "EUR", 2, -1000, none, true, ""⟩,
   .define ⟨"wid", "widget", 0, 0, none, true, ""⟩,
   .transfer (newSealer monthWindows) ⟨0, "u"⟩
     ⟨"t1", "eur", "wid", .text "1", 0, "", .instant 1000000000⟩]

/-- The request is accepted, takes a cent off the first account and adds a widget to the
second: neither unit sums to zero, and the debited account did not move by 1. -/
theorem mixedRun_not_conserved :
    (run (balStep "1") {} mixedRun).balances = [⟨1, -1, 1⟩, ⟨2, 1, 1⟩] ∧
      decimalValue "1" = 1 ∧
      unitSum (run (balStep "1") {} mixedRun) "EUR" = -1 / 100 ∧
      unitSum (run (balStep "1") {} mixedRun) "widget" = 1 := by
  decide +kernel

end Xolu.Server
