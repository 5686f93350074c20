/-
# Floors and ceilings

The floor is tested on the debit leg only and the ceiling on the credit leg only, both
in the engine's arithmetic and with a claim sum in between.  `floorBound_le` and
`le_ceilingBound` read the two tests back as inequalities on the new balance; from
there a transfer keeps every account within its bounds.  A new account starts at 0,
whatever its bounds, and `AccountDef.validate` does not ask that 0 lie between them.
-/
import Xolu.Bal.Ledger

namespace Xolu.Bal

open List Num64 Instant Chronicle Dxp Keyed Runs Sql

/-! ### What the two guards say -/

theorem foldl_claims_inRange (l : List Claim) {v : Int} (hv : InRange v) :
    InRange (l.foldl (fun sum c =>
      if c.weight = .pessimistic then wrap (sum + c.amount) else sum) v) := by
  refine foldlRecOn l _ hv fun v hv c _ => ?_
  split
  · exact wrap_inRange _
  · exact hv

theorem pessimisticClaimSum_inRange (cache : MemCache) (now : Int) (tenant resource : String) :
    InRange (pessimisticClaimSum cache now tenant resource) :=
  foldl_claims_inRange _ (by decide)

theorem Store.claimed_inRange (s : Store) (now : Int) (id : String) :
    InRange (s.claimed now id) := by
  unfold Store.claimed
  split
  · decide
  · exact pessimisticClaimSum_inRange ..

section

variable {m c v : Int} {a : Account}

/-- As long as nothing overflows the debit guard is the exact inequality. -/
theorem floorBound_iff (hv : InRange (v - m)) (hc : InRange (v - m - c)) :
    floorBound m c a v = true ↔ a.floor ≤ v - m - c := by
  unfold floorBound
  rw [sub_int hv, sub_int hc, val_int, decide_eq_true_iff]

/-- With a claim sum that is not negative the debit guard implies the floor, also where
the guard's own arithmetic leaves the integers. -/
theorem floorBound_le (h : floorBound m c a v = true) (hv : InRange (v - m))
    (hc : InRange c) (h0 : 0 ≤ c) : a.floor ≤ v - m := by
  by_cases hr : InRange (v - m - c)
  · have := (floorBound_iff hv hr).mp h
    omega
  · have hlow : v - m - c < -9223372036854775808 := by
      unfold InRange at hr hv; omega
    have hval := sub_low hv hc hlow
    unfold floorBound at h
    rw [sub_int hv, decide_eq_true_iff] at h
    exact h.trans (hval.trans hv.1)

theorem ceilingBound_iff (hv : InRange (v + m)) (hc : InRange (v + m + c)) :
    ceilingBound m c a v = true ↔ v + m + c ≤ a.ceiling.getD 9223372036854775807 := by
  unfold ceilingBound
  rw [add_int hv, add_int hc, val_int, decide_eq_true_iff]

theorem le_ceilingBound (h : ceilingBound m c a v = true) (hv : InRange (v + m))
    (hc : InRange c) (h0 : 0 ≤ c) : v + m ≤ a.ceiling.getD 9223372036854775807 := by
  by_cases hr : InRange (v + m + c)
  · have := (ceilingBound_iff hv hr).mp h
    omega
  · have hhigh : 9223372036854775807 < v + m + c := by
      unfold InRange at hr hv; omega
    have hval := add_high hv hc hhigh
    have hmax := hv.2
    unfold ceilingBound at h
    rw [add_int hv, decide_eq_true_iff] at h
    omega

end

/-! ### Bounds over runs -/

/-- Every balance lies between its account's floor and its ceiling, if it has one. -/
def Bounded (t : Tables) : Prop :=
  ∀ a ∈ t.accounts, ∀ b ∈ t.balances, b.key = a.key →
    a.floor ≤ b.value ∧ ∀ c ∈ a.ceiling, b.value ≤ c
deriving Decidable

/-- The claim sums the guards of a transfer work with are not negative: true without a
claims cache, and of every cache whose sums do not wrap. -/
def ClaimsNonneg (_ : Tables) : Cmd → Prop
  | .define _ => True
  | .transfer s now x => 0 ≤ s.claimed now x.src ∧ 0 ≤ s.claimed now x.dst

instance (t : Tables) : DecidablePred (ClaimsNonneg t)
  | .define _ => .isTrue trivial
  | .transfer _ _ _ => inferInstanceAs (Decidable (_ ∧ _))

/-- A definition that passes the checks has its floor at or below zero and its ceiling,
if any, at or above. -/
def ZeroWithin (t : Tables) : Cmd → Prop
  | .define d => d.Allowed t → d.floor ≤ 0 ∧ ∀ c ∈ d.ceiling, 0 ≤ c
  | .transfer _ _ _ => True

instance (t : Tables) : DecidablePred (ZeroWithin t)
  | .define _ => inferInstanceAs (Decidable (_ → _))
  | .transfer _ _ _ => .isTrue trivial

section

variable {t t' : Tables}

/-- A definition keeps the bounds iff zero lies within those of the new account. -/
theorem bounded_defined {l : List Entry} {d : AccountDef} {k : Nat} (L : Ledger l t)
    (h : defineAccount d t = (.ok k, t')) (hB : Bounded t) :
    Bounded t' ↔ d.floor ≤ 0 ∧ ∀ c ∈ d.ceiling, 0 ≤ c := by
  obtain ⟨-, -, -, policy, -, rfl⟩ := defineAccount_spec h
  have hfresh := t.nextKey_fresh
  constructor
  · intro h'
    exact h' (d.toAccount t.nextKey policy) (by simp) ⟨t.nextKey, 0, 0⟩ (by simp) rfl
  · intro hzero a ha b hb hkey
    simp only [mem_append, mem_singleton] at ha hb
    rcases ha with ha | rfl <;> rcases hb with hb | rfl
    · exact hB a ha b hb hkey
    · have hk : t.nextKey = a.key := hkey
      rw [hk] at hfresh
      exact absurd (mem_map_of_mem ha) hfresh
    · -- an old row cannot carry the new key
      have hmem : b.key ∈ t.accounts.map Account.key := L.rows ▸ mem_map_of_mem hb
      rw [show b.key = t.nextKey from hkey] at hmem
      exact absurd hmem hfresh
    · exact hzero

/-- A transfer keeps the bounds. -/
theorem bounded_posted {x : Transfer} {cs cd : Int} {a b : Account} {ra rb : Balance}
    (wf : WellFormed t) (p : Posted t x cs cd a ra b rb t') (hne : x.src ≠ x.dst)
    (hpos : 0 < x.amount) (hcs : InRange cs) (hcs0 : 0 ≤ cs) (hcd : InRange cd)
    (hcd0 : 0 ≤ cd) (hB : Bounded t) : Bounded t' := by
  have hrb := p.credited_row wf hne
  intro a' ha' r hr hkey
  rw [p.accounts] at ha'
  rcases (p.mem_balances wf hne).mp hr with rfl | rfl | ⟨hr, -, -⟩
  · obtain rfl : b = a' := wf.keys.eq_of_key p.mem_dst ha' (p.credited.key.symm.trans hkey)
    have hold := hB b p.mem_dst rb hrb p.credited.key
    have hceil := le_ceilingBound p.credited.bound p.dstRange hcd hcd0
    simp only [Transfer.credited]
    refine ⟨by omega, ?_⟩
    intro c hc
    rwa [hc] at hceil
  · obtain rfl : a = a' := wf.keys.eq_of_key p.mem_src ha' (p.debited.key.symm.trans hkey)
    have hold := hB a p.mem_src ra p.debited.row p.debited.key
    have hfloor := floorBound_le p.debited.bound p.srcRange hcs hcs0
    simp only [Transfer.debited]
    refine ⟨hfloor, fun c hc => ?_⟩
    have := hold.2 c hc
    omega
  · exact hB a' ha' r hr hkey

theorem bounded_step (c : Cmd) (L : Ledger t.journal t) (hB : Bounded t)
    (hN : ClaimsNonneg t c) : Bounded (step t c) ↔ ZeroWithin t c := by
  cases c with
  | define d =>
    show Bounded (defineAccount d t).2 ↔ (d.Allowed t → _)
    rw [← defineAccount_isOk_iff]
    rcases h : defineAccount d t with ⟨e | k, t'⟩
    · obtain rfl : _ = _ := defineAccount_spec h
      simp [Except.isOk, Except.toBool, hB]
    · simpa [Except.isOk, Except.toBool] using bounded_defined L h hB
  | transfer s now x =>
    refine iff_of_true ?_ trivial
    show Bounded (s.transfer now x t).2
    rcases h : s.transfer now x t with ⟨_ | ks, t'⟩
    · obtain rfl : _ = _ := transfer_spec h
      exact hB
    · obtain ⟨hpos, hne, htx⟩ := transfer_spec h
      obtain ⟨-, a, ra, b, rb, p, -⟩ := transferInTx_ok htx
      exact bounded_posted L.toWellFormed p hne hpos (s.claimed_inRange ..) hN.1
        (s.claimed_inRange ..) hN.2 hB

end

/-- **Bounds.**  In a run of definitions and transfers every state is within bounds iff
every definition that passes the checks has zero within its own. -/
theorem bounded_iff_zeroWithin (cmds : List Cmd) (hN : Along step ClaimsNonneg {} cmds) :
    Along step (fun t c => Bounded (step t c)) {} cmds ↔ Along step ZeroWithin {} cmds := by
  refine along_iff_of_invariant (I := fun t => Ledger t.journal t ∧ Bounded t)
    ?_ ?_ ⟨Ledger.empty, by decide⟩ hN
  · rintro t c ⟨L, hB⟩ hN hC
    exact ⟨ledger_step t c L, (bounded_step c L hB hN).mpr hC⟩
  · rintro t c ⟨L, hB⟩ hN
    exact bounded_step c L hB hN

/-- Two accounts, `a` allowed to overdraw, and a transfer between them. -/
def overdraftRun : List Cmd :=
  [.define ⟨"a", "EUR", 2, -100, none, true, ""⟩,
   .define ⟨"b", "EUR", 2, 0, some 500, true, ""⟩,
   .transfer ⟨"1", none, none⟩ 0 ⟨"t1", "a", "b", 60, "", 0⟩]

theorem overdraftRun_bounded : Along step ClaimsNonneg {} overdraftRun ∧
      (Along step (fun t c => Bounded (step t c)) {} overdraftRun ↔
        Along step ZeroWithin {} overdraftRun) ∧ Along step ZeroWithin {} overdraftRun :=
  ⟨by decide, bounded_iff_zeroWithin overdraftRun (by decide), by decide⟩

/-- A definition with floor 10 is accepted, and its account starts below it. -/
theorem positive_floor_unbounded :
    (AccountDef.validate ⟨"a", "EUR", 2, 10, none, true, ""⟩).isOk = true ∧
      (run step {} [.define ⟨"a", "EUR", 2, 10, none, true, ""⟩]).balances = [⟨1, 0, 0⟩] ∧
      ¬ Bounded (run step {} [.define ⟨"a", "EUR", 2, 10, none, true, ""⟩]) := by
  decide

end Xolu.Bal
