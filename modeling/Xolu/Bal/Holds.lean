/-
# Pessimistic holds

A pessimistic claim is a promise: while it is live, nobody else spends the amount it
holds.  `held` adds up the live pessimistic claims on an account, and `headroom` is what
the account has above its floor.  `KeepsHolds` says of a step that every debit it commits
leaves the claims of other transactions covered.

Execution works with the claim sums of its stash, which may be stale.  `HoldSafe` lists
the steps after which that does no harm: a pessimistic claim that is still live is itself
part of what every later reservation saw, and otherwise the stashed sum must be large
enough.  `keepsHolds_run` follows from the invariant that the live claims not yet
executed fit into the headroom of their account.
-/
import Xolu.Bal.Adapter

namespace Xolu.Bal

open List Num64 Instant Chronicle Dxp Keyed Runs Tables

/-! ### Sums of claims -/

/-- The pessimistic claims among `l` that satisfy `P`, added up. -/
def heldIn (l : List Claim) (P : Claim → Prop) [DecidablePred P] : Int :=
  ((l.filter fun c => c.weight = .pessimistic ∧ P c).map Claim.amount).sum

section

variable {l l' : List Claim} {P Q : Claim → Prop} [DecidablePred P] [DecidablePred Q]

@[simp] theorem heldIn_nil : heldIn [] P = 0 := rfl

theorem heldIn_eq_sum : heldIn l P =
    (l.map fun c => if c.weight = .pessimistic ∧ P c then c.amount else 0).sum := by
  rw [sum_map_ite, sum_map_zero, add_zero, heldIn]

theorem heldIn_cons (c : Claim) :
    heldIn (c :: l) P = (if c.weight = .pessimistic ∧ P c then c.amount else 0) + heldIn l P := by
  rw [heldIn_eq_sum, heldIn_eq_sum, map_cons, sum_cons]

theorem heldIn_append : heldIn (l ++ l') P = heldIn l P + heldIn l' P := by
  simp [heldIn]

theorem heldIn_mono (h : ∀ c ∈ l, 0 < c.amount)
    (hPQ : ∀ c ∈ l, c.weight = .pessimistic → P c → Q c) : heldIn l P ≤ heldIn l Q := by
  rw [heldIn_eq_sum, heldIn_eq_sum]
  refine sum_le_sum fun c hc => ?_
  have himp := hPQ c hc
  split_ifs with hp hq
  · exact le_rfl
  · exact absurd ⟨hp.1, himp hp.1 hp.2⟩ hq
  · exact (h c hc).le
  · exact le_rfl

theorem heldIn_sublist (h : ∀ c ∈ l, 0 < c.amount) (hs : l'.Sublist l) :
    heldIn l' P ≤ heldIn l P := by
  apply List.Sublist.sum_le_sum ((hs.filter _).map _)
  intro x hx
  obtain ⟨c, hc, rfl⟩ := mem_map.mp hx
  exact (h c (mem_of_mem_filter hc)).le

theorem heldIn_nonneg (h : ∀ c ∈ l, 0 < c.amount) : 0 ≤ heldIn l P :=
  heldIn_sublist h (nil_sublist l)

/-- Taking one claim out. -/
theorem heldIn_remove {c : Claim} (hu : UniqueKey claimKey l) (hc : c ∈ l)
    (hw : c.weight = .pessimistic) (hP : P c) :
    heldIn l P = c.amount + heldIn l (fun d => P d ∧ claimKey d ≠ claimKey c) := by
  induction l with
  | nil => cases hc
  | cons d l ih =>
    obtain ⟨hd, hu⟩ : claimKey d ∉ l.map claimKey ∧ UniqueKey claimKey l := by
      simpa [UniqueKey] using hu
    rw [heldIn_cons, heldIn_cons]
    rcases mem_cons.mp hc with rfl | hc
    · -- the rest of the list has other keys
      have hrest : heldIn l (fun d => P d ∧ claimKey d ≠ claimKey c) = heldIn l P := by
        simp only [heldIn]
        congr 2
        apply filter_congr
        intro e he
        have : claimKey e ≠ claimKey c := fun h => hd (h ▸ mem_map_of_mem he)
        simp [this]
      rw [if_pos ⟨hw, hP⟩, hrest]
      simp
    · have hne : claimKey d ≠ claimKey c := fun h => hd (h ▸ mem_map_of_mem hc)
      rw [ih hu hc]
      simp only [hne, ne_eq, not_false_eq_true, and_true]
      omega

/-- Go's sum is the sum, taken to 64 bits. -/
theorem foldl_claims_eq {v : Int} (hv : InRange v) :
    l.foldl (fun sum c => if c.weight = .pessimistic then wrap (sum + c.amount) else sum) v
      = wrap (v + heldIn l fun _ => True) := by
  induction l generalizing v with
  | nil => simp [wrap_of_inRange hv]
  | cons c l ih =>
    rw [foldl_cons, heldIn_cons]
    by_cases hw : c.weight = .pessimistic
    · rw [if_pos hw, if_pos ⟨hw, trivial⟩, ih (wrap_inRange _), wrap_add_wrap_left, add_assoc]
    · rw [if_neg hw, if_neg (by simp [hw]), ih hv, zero_add]

end

/-- The live claims on an account. -/
def Site.live (s : Site) (id : String) : List Claim :=
  s.cache.claimsFor s.now s.tenant "bal" (dxpResource id)

/-- The live pessimistic claims on an account that satisfy `P`, added up. -/
def Site.held (s : Site) (id : String) (P : Claim → Prop) [DecidablePred P] : Int :=
  heldIn (s.live id) P

theorem Site.claimed_eq (s : Site) (id : String) :
    s.claimed id = wrap (s.held id fun _ => True) := by
  have h := foldl_claims_eq (l := s.live id) (v := 0) (by decide)
  rwa [zero_add] at h

/-! ### Headroom -/

section

variable {t t' : Tables} {x : Transfer} {cs cd : Int} {a b : Account} {ra rb : Balance}

theorem Tables.headroom_of_some (h : t.account? x.src = some a) :
    t.headroom x.src = t.valueOf a.key - a.floor := by
  simp [headroom, h]

/-- A transfer moves headroom from one account to the other. -/
theorem Posted.headroom (p : Posted t x cs cd a ra b rb t') (wf : WellFormed t)
    (hne : x.src ≠ x.dst) (id : String) :
    t'.headroom id = t.headroom id + (if id = x.src then -x.amount else 0)
      + (if id = x.dst then x.amount else 0) := by
  obtain ⟨ha, haid⟩ := Tables.account?_spec p.debited.account
  obtain ⟨hb, hbid⟩ := Tables.account?_spec p.credited.account
  simp only [Tables.headroom, p.account?]
  rcases hc : t.account? id with _ | c
  · -- both accounts of the transfer exist
    have hnone : ∀ d ∈ t.accounts, d.id ≠ id := by
      intro d hd heq
      have := find?_eq_none.mp hc d hd
      simp [heq] at this
    have hsrc : id ≠ x.src := fun h => hnone a ha (haid.trans h.symm)
    have hdst : id ≠ x.dst := fun h => hnone b hb (hbid.trans h.symm)
    simp [hsrc, hdst]
  · obtain ⟨hcm, hcid⟩ := Tables.account?_spec hc
    have hka : c.key = a.key ↔ id = x.src := by
      rw [wf.account_eq hcm ha, hcid, haid]
    have hkb : c.key = b.key ↔ id = x.dst := by
      rw [wf.account_eq hcm hb, hcid, hbid]
    simp only [p.valueOf wf hne hcm, hka, hkb]
    omega

/-- The debit guard, whatever its arithmetic does. -/
theorem floorBound_claimed {m c v : Int} (h : floorBound m c a v = true) (hv : InRange (v - m))
    (hc : InRange c) (hf : -2 ^ 63 < a.floor ∧ a.floor < 2 ^ 63) :
    c ≤ v - m - a.floor := by
  by_cases hr : InRange (v - m - c)
  · have := (floorBound_iff hv hr).mp h
    omega
  · by_cases hlow : v - m - c < -2 ^ 63
    · -- the difference is a double at or below the least integer
      have hval := Sql.sub_low hv hc hlow
      unfold floorBound at h
      rw [Sql.sub_int hv, decide_eq_true_iff] at h
      omega
    · unfold InRange at hr
      omega

/-- After a debit the headroom is at least the claim sum of its guard. -/
theorem Posted.claimed_le (p : Posted t x cs cd a ra b rb t') (wf : WellFormed t)
    (hne : x.src ≠ x.dst) (hc : InRange cs)
    (hf : -2 ^ 63 < a.floor ∧ a.floor < 2 ^ 63) :
    cs ≤ t'.headroom x.src := by
  have hguard := floorBound_claimed p.debited.bound p.srcRange hc hf
  have hvalue : t.valueOf a.key = ra.value := by
    rw [← p.debited.key, wf.valueOf p.debited.row]
  rw [p.headroom wf hne, if_pos rfl, if_neg hne, headroom_of_some p.debited.account, hvalue]
  omega

end

/-! ### The invariant -/

/-- The claims on an account fit its headroom: those still due to be executed are covered,
all of them add up within 64 bits, and an account below its floor has none. -/
structure Fits (total due headroom : Int) : Prop where
  due_le : due ≤ max 0 headroom
  range : total ≤ 9223372036854775807
  nonneg : 0 ≤ headroom ∨ total = 0

theorem Fits.mono {total due headroom total' due' headroom' : Int} (h : Fits total due headroom)
    (h0 : 0 ≤ total') (ht : total' ≤ total) (hd : due' ≤ due) (hh : headroom ≤ headroom') :
    Fits total' due' headroom' where
  due_le := hd.trans (h.due_le.trans (max_le_max le_rfl hh))
  range := ht.trans h.range
  nonneg := by
    rcases h.nonneg with h | h
    · exact .inl (h.trans hh)
    · exact .inr (le_antisymm (ht.trans h.le) h0)

namespace Site

/-- All live pessimistic claims on an account. -/
abbrev heldAll (s : Site) (id : String) : Int := s.held id fun _ => True

/-- The live pessimistic claims on an account that have not been executed. -/
abbrev heldDue (s : Site) (id : String) : Int := s.held id fun c => claimKey c ∉ s.executed

/-- The live pessimistic claims on an account that belong to other transactions. -/
abbrev heldByOthers (s : Site) (txn : Option String) (id : String) : Int :=
  s.held id fun c => some c.txn ≠ txn

/-- Sound books, claims with keys of their own, a stash that agrees with the claims, and
claims that fit the headroom of their accounts. -/
structure Inv (s : Site) : Prop where
  ledger : Ledger s.tables.journal s.tables
  floors : ∀ a ∈ s.tables.accounts, -2 ^ 63 < a.floor ∧ a.floor < 2 ^ 63
  keys : UniqueKey claimKey s.issued
  amounts : ∀ c ∈ s.issued, 0 < c.amount
  shard : (s.cache.shards s.tenant).Sublist s.issued
  stashed : ∀ c ∈ s.issued, ∀ p, s.pending (claimKey c) = some p →
    c.amount = p.amount ∧ p.src ≠ p.dst ∧ InRange p.srcClaimed
  done : ∀ k ∈ s.executed, k ∈ s.issued.map claimKey
  fits : ∀ id, Fits (s.heldAll id) (s.heldDue id) (s.tables.headroom id)
  unknown : ∀ id, s.tables.account? id = none → s.heldAll id = 0

variable {s s' : Site} {id : String} {P Q : Claim → Prop} [DecidablePred P] [DecidablePred Q]

section

variable (I : s.Inv)

include I

theorem Inv.live_sublist (id : String) : (s.live id).Sublist s.issued :=
  filter_sublist.trans I.shard

theorem Inv.live_amounts (id : String) : ∀ c ∈ s.live id, 0 < c.amount :=
  fun c hc => I.amounts c ((I.live_sublist id).subset hc)

theorem Inv.live_keys (id : String) : UniqueKey claimKey (s.live id) :=
  I.keys.sublist ((I.live_sublist id).map claimKey)

theorem Inv.held_nonneg : 0 ≤ s.held id P := heldIn_nonneg (I.live_amounts id)

theorem Inv.held_mono
    (h : ∀ c ∈ s.live id, c.weight = .pessimistic → P c → Q c) : s.held id P ≤ s.held id Q :=
  heldIn_mono (I.live_amounts id) h

/-- The guards' claim sum does not wrap. -/
theorem Inv.claimed_eq (id : String) : s.claimed id = s.heldAll id := by
  rw [Site.claimed_eq]
  apply wrap_of_inRange
  have h0 : 0 ≤ s.heldAll id := I.held_nonneg
  exact ⟨le_trans (by decide) h0, (I.fits id).range⟩

/-- Steps on the cache alone that let claims go. -/
theorem Inv.shrink (ht : s'.tables = s.tables) (hi : s'.issued = s.issued)
    (hp : s'.pending = s.pending) (he : s'.executed = s.executed)
    (hshard : (s'.cache.shards s'.tenant).Sublist s.issued)
    (hlive : ∀ id, (s'.live id).Sublist (s.live id)) : s'.Inv := by
  have hle : ∀ id (P : Claim → Prop) [DecidablePred P], s'.held id P ≤ s.held id P :=
    fun id P _ => heldIn_sublist (I.live_amounts id) (hlive id)
  have h0 : ∀ id, 0 ≤ s'.heldAll id := fun id =>
    heldIn_nonneg fun c hc => I.live_amounts id c ((hlive id).subset hc)
  refine ⟨?_, ?_, ?_, ?_, ?_, ?_, ?_, ?_, ?_⟩
  · rw [ht]; exact I.ledger
  · rw [ht]; exact I.floors
  · rw [hi]; exact I.keys
  · rw [hi]; exact I.amounts
  · rw [hi]; exact hshard
  · rw [hi, hp]; exact I.stashed
  · rw [hi, he]; exact I.done
  · intro id
    apply (I.fits id).mono (h0 id) (hle id _)
    · simp only [heldDue, he]
      exact hle id _
    · rw [ht]
  · intro id hid
    rw [ht] at hid
    exact le_antisymm ((hle id _).trans (I.unknown id hid).le) (h0 id)

/-- `ConfirmTxn` and `ReleaseTxn`. -/
theorem Inv.removed (txn : String) {cache : MemCache} (h : cache = s.cache.setShard s.tenant
      ((s.cache.shards s.tenant).filter fun cl => cl.txn != txn)) :
    Inv { s with cache := cache } := by
  subst h
  have hsub : ((s.cache.setShard s.tenant
      ((s.cache.shards s.tenant).filter fun cl => cl.txn != txn)).shards s.tenant).Sublist
        (s.cache.shards s.tenant) := by
    rw [MemCache.shards_setShard]
    exact filter_sublist
  exact I.shrink rfl rfl rfl rfl (hsub.trans I.shard) fun id => hsub.filter _

/-- Steps on the stash alone. -/
theorem Inv.restash (key : String) (q : Option PendingTransfer)
    (h : ∀ c ∈ s.issued, claimKey c = key → ∀ p ∈ q,
      c.amount = p.amount ∧ p.src ≠ p.dst ∧ InRange p.srcClaimed) : (s.stash key q).Inv := by
  refine ⟨I.ledger, I.floors, I.keys, I.amounts, I.shard, ?_, I.done, I.fits, I.unknown⟩
  intro c hc p hp
  by_cases hk : claimKey c = key
  · simp only [stash, hk, Function.update_self] at hp
    exact h c hc hk p hp
  · simp only [stash, Function.update_of_ne hk] at hp
    exact I.stashed c hc p hp

end

variable {t' : Tables}

/-- A posted transfer, with the claims executed that it stands for. -/
theorem Inv.posted (I : s.Inv) {x : Transfer} {cs cd : Int} {a b : Account} {ra rb : Balance}
    (p : Posted s.tables x cs cd a ra b rb t') (hpos : 0 < x.amount)
    (hne : x.src ≠ x.dst) {E : List String} (hE : ∀ k ∈ E, k ∈ s.issued.map claimKey)
    (hsub : ∀ k ∈ s.executed, k ∈ E)
    (hdue : heldIn (s.live x.src) (fun c => claimKey c ∉ E) ≤ t'.headroom x.src) :
    Inv { s with tables := t', executed := E } := by
  have wf := I.ledger.toWellFormed
  have hdueE : ∀ id, heldIn (s.live id) (fun c => claimKey c ∉ E) ≤ s.heldDue id := fun id =>
    I.held_mono fun c _ _ h hk => h (hsub _ hk)
  have h0 : 0 ≤ heldIn (s.live x.src) (fun c => claimKey c ∉ E) := I.held_nonneg
  refine ⟨?_, ?_, I.keys, I.amounts, I.shard, I.stashed, hE, ?_, ?_⟩
  · have h := I.ledger.posted p hne
    rwa [← p.journal] at h
  · rw [p.accounts]
    exact I.floors
  · intro id
    by_cases hsrc : id = x.src
    · -- the debited account
      subst hsrc
      exact ⟨hdue.trans (le_max_right _ _), (I.fits _).range, .inl (h0.trans hdue)⟩
    · apply (I.fits id).mono I.held_nonneg le_rfl (hdueE id)
      rw [p.headroom wf hne, if_neg hsrc]
      split <;> omega
  · intro id hid
    exact I.unknown id ((p.account? id).symm.trans hid)

/-- An ordinary transfer leaves all claims on the debited account covered. -/
theorem Inv.transfer (I : s.Inv) {x : Transfer} {ks : Nat × Nat} (h : s.transfer x = (.ok ks, t')) :
    Inv { s with tables := t' } ∧ s.heldAll x.src ≤ t'.headroom x.src := by
  obtain ⟨hpos, hne, htx⟩ := transfer_spec h
  obtain ⟨-, a, ra, b, rb, p, -⟩ := transferInTx_ok htx
  have hin : InRange (s.claimed x.src) := pessimisticClaimSum_inRange ..
  have hcov : s.claimed x.src ≤ t'.headroom x.src :=
    p.claimed_le I.ledger.toWellFormed hne hin (I.floors a p.mem_src)
  rw [I.claimed_eq] at hcov
  refine ⟨I.posted p hpos hne I.done (fun _ h => h) ?_, hcov⟩
  exact (I.held_mono fun _ _ _ _ => trivial).trans hcov

/-! ### Executing a leg -/

/-- The claim of a leg is pessimistic, live and not executed yet, while no executed claim of
another transaction on the account is live; or the stashed claim sum is at least what the
other live claims hold. -/
def LegSafe (s : Site) (c : Claim) : Prop :=
  ∀ p ∈ s.pending (claimKey c),
    (c.weight = .pessimistic ∧ c ∈ s.live p.src ∧ claimKey c ∉ s.executed ∧
      ∀ d ∈ s.live p.src, d.weight = .pessimistic → d.txn ≠ c.txn → claimKey d ∉ s.executed) ∨
    s.held p.src (fun d => claimKey d ≠ claimKey c) ≤ p.srcClaimed
deriving Decidable

variable {c : Claim}

/-- Claims of other transactions have other keys. -/
theorem Inv.key_ne (I : s.Inv) {d : Claim} (hc : c ∈ s.issued) (hd : d ∈ s.issued)
    (h : d.txn ≠ c.txn) : claimKey d ≠ claimKey c :=
  fun hk => h (by rw [I.keys.eq_of_key hd hc hk])

variable {q : PendingTransfer}

/-- With `room` left after a safe leg, the claims still due and those of other transactions
are covered. -/
theorem LegSafe.covered (I : s.Inv) {room : Int}
    (hsafe : s.LegSafe c) (hc : c ∈ s.issued) (hq : s.pending (claimKey c) = some q)
    (hroom : room = s.tables.headroom q.src - c.amount) (hcov : q.srcClaimed ≤ room) :
    heldIn (s.live q.src) (fun d => claimKey d ∉ s.executed ++ [claimKey c]) ≤ room ∧
      s.heldByOthers (some c.txn) q.src ≤ room := by
  have hothers : ∀ d ∈ s.live q.src, d.weight = .pessimistic → some d.txn ≠ some c.txn →
      claimKey d ≠ claimKey c := by
    intro d hd _ hne
    exact I.key_ne hc ((I.live_sublist _).subset hd) fun h => hne (by rw [h])
  rcases hsafe q hq with ⟨hw, hlive, hnew, hexec⟩ | hsum
  · -- the claim itself was due, so that what it held pays for the debit
    have hsplit := heldIn_remove (P := fun d => claimKey d ∉ s.executed) (I.live_keys q.src)
      hlive hw hnew
    have hrest : 0 ≤ heldIn (s.live q.src)
        (fun d => claimKey d ∉ s.executed ∧ claimKey d ≠ claimKey c) := I.held_nonneg
    have hpos := I.amounts c hc
    have hdue : heldIn (s.live q.src) (fun d => claimKey d ∉ s.executed) ≤ _ :=
      (I.fits q.src).due_le
    have hle : heldIn (s.live q.src)
        (fun d => claimKey d ∉ s.executed ∧ claimKey d ≠ claimKey c) ≤ room := by
      omega
    constructor
    · refine le_trans (I.held_mono fun d _ _ hd => ?_) hle
      simpa using hd
    · -- pessimistic claims of others are due as well
      refine le_trans (I.held_mono fun d hd hpess hne => ?_) hle
      exact ⟨hexec d hd hpess fun h => hne (by rw [h]), hothers d hd hpess hne⟩
  · -- the guard left at least the stashed sum
    constructor
    · refine le_trans (I.held_mono fun d _ _ hd => ?_) (hsum.trans hcov)
      simp only [mem_append, mem_singleton, not_or] at hd
      exact hd.2
    · exact (I.held_mono hothers).trans (hsum.trans hcov)

/-- A safe leg keeps the invariant and covers the claims of other transactions. -/
theorem Inv.leg (I : s.Inv) {at' : Int} {ks : Nat × Nat}
    (hc : c ∈ s.issued) (hq : s.pending (claimKey c) = some q) (hsafe : s.LegSafe c)
    (h : transferInTx s.sealer (q.toTransfer c.txn at') q.srcClaimed q.dstClaimed s.tables
      = (.ok ks, t')) :
    Inv { s with tables := t', executed := s.executed ++ [claimKey c] } ∧
      s.heldByOthers (some c.txn) q.src ≤ t'.headroom q.src ∧
      ∀ id, id ≠ q.src → s.tables.headroom id ≤ t'.headroom id := by
  obtain ⟨-, a, ra, b, rb, p, -⟩ := transferInTx_ok h
  obtain ⟨hamount, hne, hrange⟩ := I.stashed c hc q hq
  have hpos : 0 < q.amount := hamount ▸ I.amounts c hc
  have wf := I.ledger.toWellFormed
  have hcov : q.srcClaimed ≤ t'.headroom q.src := p.claimed_le wf hne hrange (I.floors a p.mem_src)
  have hmove : ∀ id, t'.headroom id = s.tables.headroom id
      + (if id = q.src then -q.amount else 0) + (if id = q.dst then q.amount else 0) :=
    p.headroom wf hne
  have hroom : t'.headroom q.src = s.tables.headroom q.src - c.amount := by
    rw [hmove, if_pos rfl, if_neg hne]
    omega
  have hboth := hsafe.covered I hc hq hroom hcov
  refine ⟨I.posted p hpos hne ?_ ?_ hboth.1, hboth.2, ?_⟩
  · intro k hk
    rcases mem_append.mp hk with hk | hk
    · exact I.done k hk
    · rw [mem_singleton.mp hk]
      exact mem_map_of_mem hc
  · exact fun k hk => mem_append_left _ hk
  · intro id hid
    rw [hmove, if_neg hid]
    split <;> omega

/-- A leg of the same transaction stays safe when another has been executed. -/
theorem LegSafe.next (I : s.Inv) {d : Claim} (h : s.LegSafe d) (hc : c ∈ s.issued)
    (hd : d.txn = c.txn) (hk : claimKey d ≠ claimKey c) (t' : Tables) :
    LegSafe { s with tables := t', executed := s.executed ++ [claimKey c] } d := by
  intro q hq
  apply (h q hq).imp_left
  rintro ⟨hw, hlive, hnew, hexec⟩
  refine ⟨hw, hlive, ?_, ?_⟩
  · simp [hnew, hk]
  · intro e he hpess hne
    have hold := hexec e he hpess hne
    have hkey := I.key_ne hc ((I.live_sublist _).subset he) (hd ▸ hne)
    simp [hold, hkey]

/-- The legs of a transaction, by induction on their number: the invariant holds after
each, and an account that covers the claims of others goes on to do so. -/
theorem Inv.legs {txn : String} (legs : List (Claim × Int)) (I : s.Inv)
    (hissued : ∀ l ∈ legs, l.1 ∈ s.issued ∧ l.1.txn = txn)
    (hnd : (legs.map fun l => claimKey l.1).Nodup) (hsafe : ∀ l ∈ legs, s.LegSafe l.1)
    (h : executeLegs s.sealer s.pending legs s.tables = (.ok (), t')) :
    Inv { s with tables := t', executed := s.executed ++ legs.map fun l => claimKey l.1 } ∧
      (∀ l ∈ legs, ∀ q ∈ s.pending (claimKey l.1),
        s.heldByOthers (some txn) q.src ≤ t'.headroom q.src) ∧
      ∀ id, s.heldByOthers (some txn) id ≤ s.tables.headroom id →
        s.heldByOthers (some txn) id ≤ t'.headroom id := by
  induction legs generalizing s with
  | nil =>
    cases h
    refine ⟨?_, by simp, fun _ h => h⟩
    simpa using I
  | cons l legs ih =>
    obtain ⟨c, at'⟩ := l
    obtain ⟨hc, hctxn⟩ := hissued _ mem_cons_self
    rw [map_cons, nodup_cons] at hnd
    unfold executeLegs at h
    split at h
    · cases h
    next ks t₁ hleg =>
    obtain ⟨q, hq, htx⟩ := executeLeg_ok hleg
    obtain ⟨I₁, hcov, hup⟩ := I.leg hc hq (hsafe _ mem_cons_self) htx
    have hrest : ∀ l ∈ legs, claimKey l.1 ≠ claimKey c := fun l hl hk =>
      hnd.1 (hk ▸ mem_map_of_mem (f := fun l : Claim × Int => claimKey l.1) hl)
    obtain ⟨I₂, hcov₂, hup₂⟩ := ih I₁ (fun l hl => hissued l (mem_cons_of_mem _ hl)) hnd.2
      (fun l hl => (hsafe l (mem_cons_of_mem _ hl)).next I hc
        ((hissued l (mem_cons_of_mem _ hl)).2.trans hctxn.symm) (hrest l hl) t₁) h
    rw [hctxn] at hcov
    refine ⟨?_, ?_, ?_⟩
    · simpa using I₂
    · intro l hl q' hq'
      rcases mem_cons.mp hl with rfl | hl
      · -- the first leg: covered then, and so from there on
        obtain rfl : q' = q := by simpa [hq] using hq'.symm
        exact hup₂ _ hcov
      · exact hcov₂ l hl q' hq'
    · intro id hid
      apply hup₂
      by_cases hsrc : id = q.src
      · rw [hsrc]
        exact hcov
      · exact hid.trans (hup id hsrc)

/-! ### Reserving -/

theorem dxpResource_inj {a b : String} : dxpResource a = dxpResource b ↔ a = b := by
  simp [dxpResource]

variable {tp : TransferParams} {cl : Claim}

/-- A claim that is issued is live on its own account only. -/
theorem live_issue (htenant : cl.tenant = s.tenant) (id : String) :
    (s.issue cl tp).live id = s.live id ++ (if s.now < cl.deadline ∧ cl.primitive = "bal" ∧
      cl.resource = dxpResource id then [cl] else []) := by
  simp only [live, MemCache.claimsFor, issue, stash, ← htenant, MemCache.shards_hold, filter_append]
  congr 1
  split_ifs with h
  · simp [h]
  · apply filter_eq_nil_iff.mpr
    intro c hc
    obtain rfl := mem_singleton.mp hc
    simpa [and_assoc] using h

theorem held_issue_le (htenant : cl.tenant = s.tenant)
    (hpos : 0 < cl.amount) (id : String) : (s.issue cl tp).held id P ≤ s.held id P + cl.amount := by
  simp only [held, live_issue htenant, heldIn_append]
  apply add_le_add le_rfl
  split_ifs
  · rw [heldIn_cons, heldIn_nil]
    split <;> omega
  · exact hpos.le

theorem held_issue_of_ne (htenant : cl.tenant = s.tenant)
    (hid : cl.resource ≠ dxpResource id) : (s.issue cl tp).held id P = s.held id P := by
  simp [held, live_issue htenant, hid]

/-- The check in Go's arithmetic is the one over the integers. -/
theorem Inv.reserve_room (I : s.Inv) {amount : Int} (hroom : InRange (s.tables.headroom id))
    (hcheck : amount ≤ wrap (wrap (s.tables.headroom id) - s.claimed id)) :
    s.heldAll id + amount ≤ s.tables.headroom id := by
  obtain ⟨-, hrange, hnonneg⟩ := I.fits id
  have h0 : 0 ≤ s.heldAll id := I.held_nonneg
  rw [I.claimed_eq, wrap_of_inRange hroom, wrap_of_inRange] at hcheck
  · omega
  · unfold InRange at *
    omega

/-- A claim that fits beside the others. -/
theorem Inv.fits_issue (I : s.Inv) (htenant : cl.tenant = s.tenant) (hpos : 0 < cl.amount)
    (hroom : InRange (s.tables.headroom id))
    (hbound : s.heldAll id + cl.amount ≤ s.tables.headroom id) :
    Fits ((s.issue cl tp).heldAll id) ((s.issue cl tp).heldDue id) (s.tables.headroom id) := by
  have hall : (s.issue cl tp).heldAll id ≤ s.heldAll id + cl.amount := held_issue_le htenant hpos _
  have hdue : (s.issue cl tp).heldDue id ≤ s.heldDue id + cl.amount := held_issue_le htenant hpos _
  have hle : s.heldDue id ≤ s.heldAll id := I.held_mono fun _ _ _ _ => trivial
  have h0 : 0 ≤ s.heldAll id := I.held_nonneg
  have hmax := hroom.2
  refine ⟨le_trans ?_ (le_max_right _ _), ?_, .inl ?_⟩ <;> omega

theorem Inv.reserve (I : s.Inv) {tenant txn participantId : String} {deadline : Int} {w : Weight}
    (h : s.reserve tenant tp txn participantId deadline w = (.ok cl, s'))
    (hfresh : ∀ c ∈ s.issued, claimKey c ≠ pendingKey txn participantId)
    (hroom : InRange (s.tables.headroom tp.src)) : s'.Inv := by
  obtain ⟨hpos, hne, hacc, hcheck, hcl, rfl⟩ := reserve_spec h I.ledger.toWellFormed
  have hkey : claimKey cl = pendingKey txn participantId := by rw [hcl]; rfl
  have hamount : cl.amount = tp.amount := by rw [hcl]
  have hsrc : cl.resource = dxpResource tp.src := by rw [hcl]
  have htenant : cl.tenant = s.tenant := by rw [hcl]
  rw [← hamount] at hpos hcheck
  have hbound := I.reserve_room hroom hcheck
  have hother : ∀ id, id ≠ tp.src → cl.resource ≠ dxpResource id := by
    intro id hid
    rw [hsrc, Ne, dxpResource_inj]
    exact Ne.symm hid
  refine ⟨I.ledger, I.floors, ?_, ?_, ?_, ?_, ?_, ?_, ?_⟩
  · apply I.keys.concat
    intro c hc
    rw [hkey]
    exact hfresh c hc
  · intro c hc
    rcases mem_append.mp hc with hc | hc
    · exact I.amounts c hc
    · rw [mem_singleton.mp hc]
      exact hpos
  · show ((s.cache.hold cl).shards s.tenant).Sublist (s.issued ++ [cl])
    rw [← htenant, MemCache.shards_hold, htenant]
    exact I.shard.append (List.Sublist.refl _)
  · intro c hc p hp
    rcases mem_append.mp hc with hc | hc
    · have hck : claimKey c ≠ claimKey cl := hkey ▸ hfresh c hc
      simp only [issue, stash, Function.update_of_ne hck] at hp
      exact I.stashed c hc p hp
    · obtain rfl := mem_singleton.mp hc
      simp only [issue, stash, Function.update_self, Option.some.injEq] at hp
      subst hp
      exact ⟨hamount, hne, pessimisticClaimSum_inRange ..⟩
  · intro k hk
    show k ∈ (s.issued ++ [cl]).map claimKey
    rw [map_append]
    exact mem_append_left _ (I.done k hk)
  · intro id
    by_cases hid : id = tp.src
    · -- the new claim counts on the debited account, if it is pessimistic and live
      subst hid
      exact I.fits_issue htenant hpos hroom hbound
    · have hall : (s.issue cl tp).heldAll id = s.heldAll id :=
        held_issue_of_ne htenant (hother id hid)
      have hdue : (s.issue cl tp).heldDue id = s.heldDue id :=
        held_issue_of_ne htenant (hother id hid)
      rw [hall, hdue]
      exact I.fits id
  · intro id hid
    have hne' : id ≠ tp.src := by
      rintro rfl
      have hnone : s.tables.account? tp.src = none := hid
      simp [hnone] at hacc
    exact (held_issue_of_ne htenant (hother id hne')).trans (I.unknown id hid)

/-! ### Runs -/

theorem Inv.define (I : s.Inv) {d : AccountDef} {k : Nat}
    (h : defineAccount d s.tables = (.ok k, t'))
    (hf : -2 ^ 63 < d.floor ∧ d.floor < 2 ^ 63) :
    Inv { s with tables := t' } := by
  have L := I.ledger.defined h
  have wf := I.ledger.toWellFormed
  obtain ⟨-, -, -, policy, -, rfl⟩ := defineAccount_spec h
  refine ⟨L, ?_, I.keys, I.amounts, I.shard, I.stashed, I.done, ?_, ?_⟩
  · intro a ha
    rcases mem_append.mp ha with ha | ha
    · exact I.floors a ha
    · rw [mem_singleton.mp ha]
      exact hf
  · intro id
    rcases ha : s.tables.account? id with _ | a
    · -- nothing is held on an account that did not exist
      have h0 := I.unknown id ha
      have hdue : s.heldDue id ≤ s.heldAll id := I.held_mono fun _ _ _ _ => trivial
      exact ⟨(hdue.trans h0.le).trans (le_max_left _ _), (I.fits id).range, .inr h0⟩
    · apply (I.fits id).mono I.held_nonneg le_rfl le_rfl
      obtain ⟨r, hr, hrk⟩ := wf.exists_balance (account?_spec ha).1
      have hfind : (s.tables.balances.find? (·.key == a.key)).isSome = true :=
        find?_isSome.mpr ⟨r, hr, by simp [hrk]⟩
      obtain ⟨r', hr'⟩ := Option.isSome_iff_exists.mp hfind
      have ha' : s.tables.accounts.find? (·.id == id) = some a := ha
      simp [headroom, account?, valueOf, find?_append, ha', hr']
  · intro id hid
    apply I.unknown
    have hid' : (s.tables.accounts ++ _).find? (·.id == id) = none := hid
    rw [find?_append] at hid'
    exact (Option.or_eq_none_iff.mp hid').1

/-- The step takes no chances with a hold: floors lie above the least 64-bit integer; a
reservation has a key of its own, on an account whose headroom is a 64-bit integer; and
the legs of an execution are distinct and safe. -/
def HoldSafe (s : Site) : SiteCmd → Prop
  | .define d => -2 ^ 63 < d.floor ∧ d.floor < 2 ^ 63
  | .dxp (.reserve _ tp txn participantId _ _) =>
      (∀ c ∈ s.issued, claimKey c ≠ pendingKey txn participantId) ∧
        InRange (s.tables.headroom tp.src)
  | .dxp (.execute txn is) => ∀ legs ∈ s.legsOf txn is,
      (legs.map fun l => claimKey l.1).Nodup ∧ ∀ l ∈ legs, s.LegSafe l.1
  | _ => True

/-- Every debit that the step commits leaves the account with at least what the live
pessimistic claims of other transactions hold. -/
def KeepsHolds (s : Site) (c : SiteCmd) : Prop :=
  match c with
  | .dxp (.execute txn is) => ∀ legs ∈ s.legsOf txn is, (s.execute legs).1.isOk = true →
      ∀ l ∈ legs, ∀ q ∈ s.pending (claimKey l.1),
        (s.step c).heldByOthers (some txn) q.src ≤ (s.step c).tables.headroom q.src
  | .transfer x => (s.transfer x).1.isOk = true →
      (s.step c).heldByOthers none x.src ≤ (s.step c).tables.headroom x.src
  | _ => True

/-- The step lemma for the calls of a coordinator. -/
theorem inv_dispatch (I : s.Inv) (c : DxpCmd) (h : s.HoldSafe (.dxp c)) : (s.dispatch c).Inv := by
  cases c with
  | reserve tenant tp txn participantId deadline w =>
    show Inv (s.reserve tenant tp txn participantId deadline w).2
    rcases hr : s.reserve tenant tp txn participantId deadline w with ⟨e | cl, s'⟩
    · obtain rfl : _ = _ := reserve_spec hr
      exact I
    · exact I.reserve hr h.1 h.2
  | validate i =>
    simp only [dispatch]
    split
    · next c _ =>
      rcases validate_cases s c with hv | ⟨p, hp, src, dst, hsrc, hv⟩
      · rwa [hv]
      · rw [hv]
        apply I.restash
        intro c' hc' hk q hq
        obtain rfl := Option.mem_some_iff.mp hq
        obtain ⟨hamount, hne, -⟩ := I.stashed c' hc' p (hk ▸ hp)
        exact ⟨hamount, hne, hsrc⟩
    · exact I
  | execute txn is =>
    simp only [dispatch]
    split
    · next legs hlegs =>
      rcases hok : (s.execute legs).1.isOk
      · rwa [show (s.execute legs).2 = s from execute_spec hok]
      · obtain ⟨hnd, hsafe⟩ := h legs hlegs
        obtain ⟨t', hx, hs'⟩ := execute_spec hok
        rw [hs']
        exact (I.legs legs (legsOf_spec hlegs) hnd hsafe hx).1
    · exact I
  | release i =>
    simp only [dispatch]
    split
    · apply I.restash
      simp
    · exact I
  | confirmTxn txn | releaseTxn txn => exact I.removed txn rfl

/-- The step lemma. -/
theorem inv_step (I : s.Inv) (c : SiteCmd) (h : s.HoldSafe c) : (s.step c).Inv := by
  cases c with
  | define d =>
    show Inv { s with tables := (defineAccount d s.tables).2 }
    rcases hd : defineAccount d s.tables with ⟨e | k, t'⟩
    · obtain rfl : _ = _ := defineAccount_spec hd
      exact I
    · exact I.define hd h
  | dxp c => exact inv_dispatch I c h
  | transfer x =>
    show Inv { s with tables := (s.transfer x).2 }
    rcases hx : s.transfer x with ⟨e | ks, t'⟩
    · obtain rfl : _ = _ := transfer_spec hx
      exact I
    · exact (I.transfer hx).1
  | tick d =>
    -- time only takes claims away
    show Inv { s with now := s.now + d }
    refine I.shrink rfl rfl rfl rfl I.shard fun id => ?_
    apply monotone_filter_right
    intro c
    simp only [Bool.and_eq_true, decide_eq_true_eq, and_imp]
    intro hlive hprim hres
    exact ⟨⟨by omega, hprim⟩, hres⟩

/-- A step along a safe run keeps the holds. -/
theorem keepsHolds_step (I : s.Inv) (c : SiteCmd) (h : s.HoldSafe c) : s.KeepsHolds c := by
  match c with
  | .dxp (.execute txn is) =>
    intro legs hlegs hok l hl q hq
    obtain ⟨hnd, hsafe⟩ := h legs hlegs
    obtain ⟨t', hx, hs'⟩ := execute_spec hok
    have hlegs' : s.legsOf txn is = some legs := hlegs
    have hstep : s.step (.dxp (.execute txn is)) = { s with
        tables := t', executed := s.executed ++ legs.map fun l => claimKey l.1 } := by
      simp only [step, dispatch, hlegs', hs']
    rw [hstep]
    exact (I.legs legs (legsOf_spec hlegs) hnd hsafe hx).2.1 l hl q hq
  | .transfer x =>
    intro hok
    rcases hx : s.transfer x with ⟨e | ks, t'⟩
    · rw [hx] at hok
      cases hok
    · have hstep : s.step (.transfer x) = { s with tables := t' } := by
        simp only [step, hx]
      rw [hstep]
      refine le_trans ?_ (I.transfer hx).2
      exact I.held_mono fun _ _ _ _ => trivial
  | .define _ | .dxp (.reserve ..) | .dxp (.validate _) | .dxp (.release _)
  | .dxp (.confirmTxn _) | .dxp (.releaseTxn _) | .tick _ => trivial

instance (s : Site) : DecidablePred s.HoldSafe
  | .define _ => inferInstanceAs (Decidable (_ ∧ _))
  | .dxp (.reserve ..) => inferInstanceAs (Decidable ((∀ _ ∈ _, _) ∧ (_ ∧ _)))
  | .dxp (.execute ..) => inferInstanceAs (Decidable (∀ _ ∈ _, _ ∧ ∀ _ ∈ _, LegSafe s _))
  | .dxp (.validate _) | .dxp (.release _) | .dxp (.confirmTxn _) | .dxp (.releaseTxn _)
  | .transfer _ | .tick _ => .isTrue trivial

instance (s : Site) : DecidablePred s.KeepsHolds
  | .dxp (.execute ..) => inferInstanceAs (Decidable (∀ _ ∈ _, _ → ∀ _ ∈ _, ∀ _ ∈ _, _))
  | .transfer _ => inferInstanceAs (Decidable (_ → _))
  | .define _ | .dxp (.reserve ..) | .dxp (.validate _) | .dxp (.release _)
  | .dxp (.confirmTxn _) | .dxp (.releaseTxn _) | .tick _ => .isTrue trivial

end Site

theorem Site.inv_init (tenant : String) (sealer : Option Sealer) (now : Int) :
    (Site.init tenant sealer now).Inv where
  ledger := Ledger.empty
  floors := by simp [Site.init]
  keys := nodup_nil
  amounts := by simp [Site.init]
  shard := List.Sublist.refl _
  stashed := by simp [Site.init]
  done := by simp [Site.init]
  fits := fun id => ⟨le_max_left _ _, show (0 : Int) ≤ _ by decide, .inr rfl⟩
  unknown := fun id _ => rfl

/-- **Holds are kept**: along every run whose steps are `HoldSafe`, whatever the
interleaving, each committed debit leaves its account with at least what the live
pessimistic claims of other transactions hold. -/
theorem keepsHolds_run (tenant : String) (sealer : Option Sealer) (now : Int) (cmds : List SiteCmd)
    (h : Along Site.step Site.HoldSafe (Site.init tenant sealer now) cmds) :
    Along Site.step Site.KeepsHolds (Site.init tenant sealer now) cmds :=
  along_of_invariant (fun _ c I hc => Site.inv_step I c hc)
    (fun _ c I hc => Site.keepsHolds_step I c hc) (Site.inv_init tenant sealer now) h

/-- Three accounts, with 1000 paid out of the first into the second. -/
def fundedSite : List SiteCmd :=
  [.define ⟨"bank", "EUR", 2, -5000, none, true, ""⟩,
   .define ⟨"payer", "EUR", 2, 0, none, true, ""⟩,
   .define ⟨"payee", "EUR", 2, 0, none, true, ""⟩,
   .transfer ⟨"", "bank", "payer", 1000, "", 1⟩]

/-- A reservation of the payer, live up to instant 100. -/
def holdPayer (txn : String) (amount : Int) (w : Weight) : SiteCmd :=
  .dxp (.reserve "t1" ⟨"payer", "payee", amount, ""⟩ txn "leg" 100 w)

/-- Two pessimistic transactions and an ordinary transfer between them. -/
def twoHolds : List SiteCmd :=
  fundedSite ++
    [holdPayer "T1" 600 .pessimistic, holdPayer "T2" 300 .pessimistic, .dxp (.validate 0),
     .dxp (.execute "T1" [(0, 2)]), .dxp (.confirmTxn "T1"),
     .transfer ⟨"", "payer", "payee", 100, "", 3⟩,
     .dxp (.validate 1), .dxp (.execute "T2" [(1, 4)])]

theorem twoHolds_keepsHolds :
    (run Site.step (Site.init "t1" none 0) twoHolds).tables.balances.map Balance.value
        = [-1000, 0, 1000] ∧ Along Site.step Site.KeepsHolds (Site.init "t1" none 0) twoHolds :=
  ⟨by decide +kernel, keepsHolds_run _ _ _ twoHolds (by decide +kernel)⟩

/-- `T1` reserves optimistically, `T2` then holds the whole balance, and `T1` executes with
the claim sum of its own reservation: the debit is committed and nothing is left for `T2`. -/
theorem optimistic_spends_hold :
    let before := run Site.step (Site.init "t1" none 0)
      (fundedSite ++ [holdPayer "T1" 1000 .optimistic, holdPayer "T2" 1000 .pessimistic])
    let after := before.step (.dxp (.execute "T1" [(0, 2)]))
    (before.legsOf "T1" [(0, 2)]).map (fun legs => (before.execute legs).1.isOk) = some true ∧
      after.tables.headroom "payer" = 0 ∧ after.heldByOthers (some "T1") "payer" = 1000 ∧
      ¬ Along Site.step Site.KeepsHolds (Site.init "t1" none 0)
        (fundedSite ++ [holdPayer "T1" 1000 .optimistic, holdPayer "T2" 1000 .pessimistic,
          .dxp (.execute "T1" [(0, 2)])]) := by
  decide

end Xolu.Bal
